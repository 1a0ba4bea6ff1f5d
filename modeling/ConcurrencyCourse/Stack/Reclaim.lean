import ConcurrencyCourse.Stack.RefCount
import Mathlib.Tactic.FinCases

/-!
# The stamped Treiber stack: no access after deletion, no leak

`Inv` is kept by every atomic step (`inv_step`). The interesting steps are the two that fold a
release into `inner_counter` (`popAdd`, `popSub`): `AddrOk` says that the counter reaches zero
there exactly when the last reference is gone.
-/

namespace Stack

open Transition StampedPtr Function

variable {ι A V : Type}

/-! ## The numbers of the allocations -/

/-- `ids` is the number of the node on each address, `busy` how many places the node has in the
chain and in the hands of a pusher. -/
structure IdsOk (ids : A → Option Nat) (busy : A → Nat) (allocs : Nat)
    (out : List (Option Nat)) (del : List Nat) : Prop where
  lt : ∀ a i, ids a = some i → i < allocs
  inj : ∀ a b i, ids a = some i → ids b = some i → a = b
  nodup : del.Nodup
  deleted : ∀ i ∈ del, i < allocs ∧ ∀ a, ids a ≠ some i
  all : ∀ i < allocs, i ∈ del ∨ ∃ a, ids a = some i
  /-- A popped node does not come back into the chain. -/
  popped : ∀ x ∈ out, ∃ i, x = some i ∧ i < allocs ∧ ∀ a, ids a = some i → busy a = 0

section ids

variable {ids : A → Option Nat} {busy busy' : A → Nat} {allocs : Nat}
  {out : List (Option Nat)} {del : List Nat}

theorem IdsOk.busy_le (h : IdsOk ids busy allocs out del) (hb : ∀ a, busy' a ≤ busy a) :
    IdsOk ids busy' allocs out del :=
  ⟨h.lt, h.inj, h.nodup, h.deleted, h.all, fun x hx => by
    obtain ⟨i, h1, h2, h3⟩ := h.popped x hx
    exact ⟨i, h1, h2, fun a ha => by have := h3 a ha; have := hb a; omega⟩⟩

/-- The node at `p`, which has no other place, leaves the chain. -/
theorem IdsOk.pop (h : IdsOk ids busy allocs out del) {p : A} {i : Nat} (hp : ids p = some i)
    (hb : busy p = 0) : IdsOk ids busy allocs (some i :: out) del :=
  ⟨h.lt, h.inj, h.nodup, h.deleted, h.all, fun x hx => by
    rcases List.mem_cons.1 hx with rfl | hx
    · exact ⟨i, rfl, h.lt p i hp, fun a ha => by rw [h.inj a p i ha hp]; exact hb⟩
    · exact h.popped x hx⟩

variable [DecidableEq A]

theorem IdsOk.alloc (h : IdsOk ids busy allocs out del) {a : A} (ha : ids a = none)
    (hb : ∀ b, b ≠ a → busy' b ≤ busy b) :
    IdsOk (update ids a (some allocs)) busy' (allocs + 1) out del := by
  have hcase : ∀ b i, update ids a (some allocs) b = some i →
      (b = a ∧ i = allocs) ∨ (b ≠ a ∧ ids b = some i ∧ i < allocs) := by
    intro b i hi
    by_cases hba : b = a
    · subst hba
      rw [update_self, Option.some.injEq] at hi
      exact .inl ⟨rfl, hi.symm⟩
    · rw [update_of_ne hba] at hi
      exact .inr ⟨hba, hi, h.lt b i hi⟩
  refine ⟨fun b i hi => ?_, fun b c i hi hi' => ?_, h.nodup, fun i hi => ⟨?_, fun b hb' => ?_⟩,
    fun i hi => ?_, fun x hx => ?_⟩
  · rcases hcase b i hi with ⟨-, rfl⟩ | ⟨-, -, h1⟩ <;> omega
  · rcases hcase b i hi with ⟨rfl, rfl⟩ | ⟨-, h1, h2⟩ <;>
      rcases hcase c i hi' with ⟨rfl, e⟩ | ⟨-, h3, h4⟩
    · rfl
    · omega
    · omega
    · exact h.inj b c i h1 h3
  · have := (h.deleted i hi).1; omega
  · rcases hcase b i hb' with ⟨-, rfl⟩ | ⟨-, h1, -⟩
    · have := (h.deleted _ hi).1; omega
    · exact (h.deleted i hi).2 b h1
  · by_cases he : i = allocs
    · exact .inr ⟨a, by rw [update_self, he]⟩
    · refine (h.all i (by omega)).imp_right fun ⟨b, hb'⟩ => ⟨b, ?_⟩
      rw [update_of_ne (by rintro rfl; rw [ha] at hb'; cases hb'), hb']
  · obtain ⟨i, h1, h2, h3⟩ := h.popped x hx
    refine ⟨i, h1, by omega, fun b hi => ?_⟩
    rcases hcase b i hi with ⟨-, rfl⟩ | ⟨hba, h4, -⟩
    · omega
    · have := h3 b h4; have := hb b hba; omega

theorem IdsOk.delete (h : IdsOk ids busy allocs out del) {a : A} {i : Nat}
    (ha : ids a = some i) :
    IdsOk (update ids a none) busy allocs out (i :: del) := by
  have hcase : ∀ b j, update ids a none b = some j → b ≠ a ∧ ids b = some j := by
    intro b j hj
    by_cases hba : b = a
    · subst hba; simp at hj
    · rw [update_of_ne hba] at hj; exact ⟨hba, hj⟩
  refine ⟨fun b j hj => h.lt b j (hcase b j hj).2,
    fun b c j hj hj' => h.inj b c j (hcase b j hj).2 (hcase c j hj').2,
    List.nodup_cons.2 ⟨fun hd => (h.deleted i hd).2 a ha, h.nodup⟩, fun j hj => ?_,
    fun j hj => ?_, fun x hx => ?_⟩
  · rcases List.mem_cons.1 hj with rfl | hj
    · refine ⟨h.lt a j ha, fun b hb => ?_⟩
      obtain ⟨h1, h2⟩ := hcase b j hb
      exact h1 (h.inj b a j h2 ha)
    · exact ⟨(h.deleted j hj).1, fun b hb => (h.deleted j hj).2 b (hcase b j hb).2⟩
  · by_cases hji : j = i
    · exact .inl (by simp [hji])
    · refine (h.all j hj).imp (List.mem_cons_of_mem _) fun ⟨b, hb⟩ => ⟨b, ?_⟩
      rw [update_of_ne (by rintro rfl; rw [ha, Option.some.injEq] at hb; exact hji hb.symm), hb]
  · obtain ⟨j, h1, h2, h3⟩ := h.popped x hx
    exact ⟨j, h1, h2, fun b hb => h3 b (hcase b j hb).2⟩

end ids

/-! ## The invariant -/

variable [DecidableEq A]

/-- The node a thread has a right to: the one it accesses next, or the one it has acquired and
will access later. -/
def Local.means : Local A V → Option (A × Option Nat)
  | .popUnlink p _ _ id => some (p, id)
  | l => l.accesses

/-- The stamp a thread has in a local. -/
def Local.stamp : Local A V → Nat
  | .popInc _ k | .popNext _ k _ | .popUnlink _ k _ _ => k
  | _ => 0

/-- A thread's locals agree with the heap. -/
structure LocOk (heap : A → Option (Node A V)) (l : Local A V) : Prop where
  means : ∀ a id, l.means = some (a, id) → ∃ n, heap a = some n ∧ id = some n.id
  next : ∀ p k nx id, l = .popUnlink p k nx id → (heap p).map Node.next = some nx
  stamp : l.stamp ≤ maxStamp

/-- The roles of a thread at `b`. -/
def Local.roles (l : Local A V) (b : A) : Nat × Nat × Nat × Nat × Nat :=
  (l.ref b, l.winner b, l.winStamp b, l.pusher b, l.deleter b)

theorem means_role {l : Local A V} {a : A} {id : Option Nat} (h : l.means = some (a, id)) :
    0 < l.ref a + l.pusher a + l.deleter a := by
  cases l <;> simp_all [Local.means, Local.accesses, Local.ref, Local.pusher, Local.deleter]

variable [Fintype ι]

/-- Places of the node at `b` in the chain and with a pusher. -/
def busy (L : List (A × Nat)) (loc : ι → Local A V) (b : A) : Nat :=
  (counts L loc b).linked + (counts L loc b).pushers

structure Inv (s : State ι A V) (L : List (A × Nat)) : Prop where
  head : s.head = wordOf L
  linked : Linked s.heap L
  stamps : ∀ x ∈ L, x.2 ≤ maxStamp
  addr : ∀ b, AddrOk (s.heap b) (counts L s.loc b)
  loc : ∀ t, LocOk s.heap (s.loc t)
  ids : IdsOk s.idAt (busy L s.loc) s.allocs s.popped s.deleted

variable {s : State ι A V} {L : List (A × Nat)} {t : ι} {l x : Local A V}

theorem Inv.live_of_linked (hi : Inv s L) {a : A} (ha : a ∈ L.map Prod.fst) :
    ∃ n, s.heap a = some n := by
  have h := hi.addr a
  cases hn : s.heap a with
  | some n => exact ⟨n, rfl⟩
  | none =>
    rw [hn] at h
    have := linkedAt_pos.2 ha
    simp only [AddrOk, counts] at h
    omega

variable [DecidableEq ι]

/-- Roles that do not change leave the counts alone. -/
theorem counts_same {b : A} (hl : s.loc t = l) (h : x.roles b = l.roles b) :
    counts L (update s.loc t x) b = counts L s.loc b := by
  simp only [Local.roles, Prod.mk.injEq, ← hl] at h
  obtain ⟨h1, h2, h3, h4, h5⟩ := h
  simp only [counts, Counts.mk.injEq, true_and]
  exact ⟨Threads.sum_update_same _ _ _ _ h1, Threads.sum_update_same _ _ _ _ h2,
    Threads.sum_update_same _ _ _ _ h3, Threads.sum_update_same _ _ _ _ h4,
    Threads.sum_update_same _ _ _ _ h5⟩

omit [DecidableEq A] [Fintype ι] in
theorem locOk_update {loc : ι → Local A V} {heap : A → Option (Node A V)} (hx : LocOk heap x)
    (h : ∀ u, u ≠ t → LocOk heap (loc u)) (u : ι) : LocOk heap (update loc t x u) := by
  by_cases hu : u = t
  · subst hu; rwa [update_self]
  · rw [update_of_ne hu]; exact h u hu

/-- A step that writes only locals and keeps the thread's roles. -/
theorem Inv.move (hi : Inv s L) (hl : s.loc t = l) (hr : ∀ b, x.roles b = l.roles b)
    (hx : LocOk s.heap x) : Inv (s.setLoc t x) L where
  head := hi.head
  linked := hi.linked
  stamps := hi.stamps
  addr b := by rw [setLoc_loc, counts_same hl (hr b)]; exact hi.addr b
  loc := locOk_update hx fun u _ => hi.loc u
  ids := hi.ids.busy_le fun b => by simp only [busy, setLoc_loc]; rw [counts_same hl (hr b)]

/-- A step that writes to the node at `p`; only a pusher may change `next`. -/
theorem Inv.write (hi : Inv s L) (hl : s.loc t = l) {p : A} {n n' : Node A V}
    (hn : s.heap p = some n) (hid : n'.id = n.id) (hnext : n'.next = n.next ∨ l.pusher p = 1)
    (hp : AddrOk (some n') (counts L (update s.loc t x) p))
    (hpush : x.pusher p = l.pusher p) (hr : ∀ b, b ≠ p → x.roles b = l.roles b)
    (hx : LocOk (update s.heap p (some n')) x) :
    Inv ((s.setNode p n').setLoc t x) L := by
  have hpn := hi.addr p
  rw [hn] at hpn
  -- a node being pushed is in nobody else's hands
  have hown : n'.next = n.next ∨ ((counts L s.loc p).linked = 0 ∧ (counts L s.loc p).refs = 0) := by
    refine hnext.imp_right fun h => ?_
    have h1 : l.pusher p ≤ (counts L s.loc p).pushers := by
      rw [← hl]; exact Threads.le_sum (fun t => (s.loc t).pusher p) t
    have hst := (counts_update L L s.loc t x p).stamp_zero
    have hwst := (counts_update L L s.loc t x p).winStamp_zero
    obtain ⟨g1, g2, g3, g4, g5⟩ := hpn
    have := hst (by omega)
    have := hwst (by omega)
    have := g4 (by omega)
    exact ⟨by omega, by omega⟩
  have hids : ((s.setNode p n').setLoc t x).idAt = s.idAt := by
    funext a
    simp only [State.idAt, setLoc_heap, setNode_heap]
    by_cases hap : a = p
    · subst hap; rw [update_self, hn, Option.map_some, Option.map_some, hid]
    · rw [update_of_ne hap]
  refine ⟨hi.head, ?_, hi.stamps, fun b => ?_, locOk_update hx fun u hu => ?_, ?_⟩
  · refine hi.linked.congr fun a ha => ?_
    simp only [setLoc_heap, setNode_heap]
    by_cases hap : a = p
    · subst hap
      rcases hown with h | h
      · rw [update_self, hn, Option.map_some, Option.map_some, Node.nextWord, h]; rfl
      · have := linkedAt_pos.2 ha
        simp only [counts] at h; omega
    · rw [update_of_ne hap]
  · simp only [setLoc_heap, setNode_heap, setLoc_loc, setNode_loc]
    by_cases hb : b = p
    · subst hb; rw [update_self]; exact hp
    · rw [update_of_ne hb, counts_same hl (hr b hb)]; exact hi.addr b
  · simp only [setLoc_heap, setNode_heap, setNode_loc]
    refine ⟨fun a id ha => ?_, fun q k nx id hq => ?_, (hi.loc u).stamp⟩
    · obtain ⟨m, hm, rfl⟩ := (hi.loc u).means a id ha
      by_cases hap : a = p
      · subst hap
        rw [hn, Option.some.injEq] at hm
        exact ⟨n', update_self .., by rw [hid, hm]⟩
      · exact ⟨m, by rw [update_of_ne hap, hm], rfl⟩
    · have hnx := (hi.loc u).next q k nx id hq
      by_cases hqp : q = p
      · subst hqp
        rcases hown with h | h
        · rw [update_self, Option.map_some, h, ← hnx, hn, Option.map_some]
        · have h1 : (s.loc u).ref q ≤ (counts L s.loc q).refs :=
            Threads.le_sum (fun t => (s.loc t).ref q) u
          simp only [hq, Local.ref, if_true] at h1
          omega
      · rw [update_of_ne hqp]; exact hnx
  · rw [hids]
    refine hi.ids.busy_le fun b => ?_
    have h1 := (counts_update L L s.loc t x b).pushers
    have h2 : x.pusher b = l.pusher b := by
      by_cases hb : b = p
      · rw [hb, hpush]
      · exact congrArg (·.2.2.2.1) (hr b hb)
    rw [hl, h2] at h1
    simp only [busy, counts, setLoc_loc, setNode_loc] at h1 ⊢
    omega

/-! ## The steps that move a node -/

omit [DecidableEq ι] in
@[simp] theorem counts_linked (L : List (A × Nat)) (loc : ι → Local A V) (b : A) :
    (counts L loc b).linked = linkedAt L b := rfl

omit [DecidableEq ι] in
@[simp] theorem counts_stamp (L : List (A × Nat)) (loc : ι → Local A V) (b : A) :
    (counts L loc b).stamp = stampAt L b := rfl

omit [DecidableEq ι] in
theorem Inv.not_mem_of_free (hi : Inv s L) {a : A} (ha : s.heap a = none) : a ∉ L.map Prod.fst := by
  intro h
  obtain ⟨n, hn⟩ := hi.live_of_linked h
  rw [ha] at hn; cases hn

/-- `new Node`. -/
theorem Inv.push (hi : Inv s L) (hl : s.loc t = .idle) {a : A} (ha : s.heap a = none) (v : V) :
    Inv ((s.alloc a v).setLoc t (.pushLoad a (some s.allocs))) L := by
  have hsame : ∀ b, b ≠ a → counts L (update s.loc t (.pushLoad a (some s.allocs))) b = counts L s.loc b :=
    fun b hb => counts_same hl (by simp [Local.roles, Local.ref, Local.winner, Local.winStamp,
      Local.pusher, Local.deleter, Ne.symm hb])
  have hheap : ((s.alloc a v).setLoc t (.pushLoad a (some s.allocs))).heap =
      update s.heap a (some ⟨v, .null, 0, s.allocs⟩) := rfl
  have hids : ((s.alloc a v).setLoc t (.pushLoad a (some s.allocs))).idAt =
      update s.idAt a (some s.allocs) := by
    funext b
    by_cases hb : b = a
    · subst hb; simp [State.idAt]
    · simp [State.idAt, hb]
  refine ⟨hi.head, ?_, hi.stamps, fun b => ?_, locOk_update ?_ fun u _ => ?_, ?_⟩
  · refine hi.linked.congr fun b hb => ?_
    have hba : b ≠ a := by rintro rfl; exact hi.not_mem_of_free ha hb
    rw [hheap, update_of_ne hba]
  · rw [hheap, setLoc_loc, alloc_loc]
    by_cases hb : b = a
    · subst hb
      obtain ⟨c1, c2, c3, c4, c5, c6, c7, c8, c9⟩ :=
        counts_update L L s.loc t (.pushLoad b (some s.allocs)) b
      have h := hi.addr b
      rw [ha] at h
      simp only [hl, Local.ref, Local.winner, Local.winStamp, Local.pusher, Local.deleter,
        if_true] at c1 c2 c3 c4 c5
      obtain ⟨h1, h2, h3, h4, h5⟩ := h
      simp only [counts_linked, counts_stamp] at c6 c7 h1
      rw [update_self]
      simp only [AddrOk, counts_linked, counts_stamp]
      omega
    · rw [update_of_ne hb]
      have := hi.addr b
      rwa [← hsame b hb] at this
  · refine ⟨fun b id hb => ?_, fun _ _ _ _ h => (by cases h), Nat.zero_le _⟩
    simp only [Local.means, Local.accesses, Option.some.injEq, Prod.mk.injEq] at hb
    obtain ⟨rfl, rfl⟩ := hb
    exact ⟨_, by rw [hheap, update_self], rfl⟩
  · rw [hheap]
    refine ⟨fun b id hb => ?_, fun q k nx id hq => ?_, (hi.loc u).stamp⟩
    · obtain ⟨n, hn, e⟩ := (hi.loc u).means b id hb
      have hba : b ≠ a := by rintro rfl; rw [ha] at hn; cases hn
      exact ⟨n, by rw [update_of_ne hba, hn], e⟩
    · have h := (hi.loc u).next q k nx id hq
      have hqa : q ≠ a := by rintro rfl; rw [ha] at h; cases h
      rw [update_of_ne hqa, h]
  · rw [hids]
    refine hi.ids.alloc (by simp [State.idAt, ha]) fun b hb => ?_
    exact (congrArg (fun c => c.linked + c.pushers) (hsame b hb)).le

/-- `delete`. -/
theorem Inv.delete (hi : Inv s L) {p : A} {id : Option Nat} {r : Option V} {n : Node A V}
    (hl : s.loc t = .delete p id r) (hn : s.heap p = some n) (hx : ∀ b, x.roles b = (0, 0, 0, 0, 0))
    (hok : ∀ heap, LocOk heap x) : Inv ((s.free p n).setLoc t x) L := by
  have hsame : ∀ b, b ≠ p → counts L (update s.loc t x) b = counts L s.loc b :=
    fun b hb => counts_same hl (by rw [hx]; simp [Local.roles, Local.ref, Local.winner,
      Local.winStamp, Local.pusher, Local.deleter, Ne.symm hb])
  have hheap : ((s.free p n).setLoc t x).heap = update s.heap p none := rfl
  have hids : ((s.free p n).setLoc t x).idAt = update s.idAt p none := by
    funext b
    by_cases hb : b = p
    · subst hb; simp [State.idAt]
    · simp [State.idAt, hb]
  have hp := hi.addr p
  rw [hn] at hp
  obtain ⟨h1, h2, h3, h4, h5⟩ := hp
  obtain ⟨c1, c2, c3, c4, c5, c6, c7, c8, c9⟩ := counts_update L L s.loc t x p
  have hxp := hx p
  simp only [Local.roles, Prod.mk.injEq] at hxp
  obtain ⟨x1, x2, x3, x4, x5⟩ := hxp
  rw [hl, x1] at c1
  rw [hl, x2] at c2
  rw [hl, x3] at c3
  rw [hl, x4] at c4
  rw [hl, x5] at c5
  simp only [Local.ref, Local.winner, Local.winStamp, Local.pusher, Local.deleter,
    if_true] at c1 c2 c3 c4 c5
  have hlk : linkedAt L p = 0 := by simp only [counts_linked] at h1; omega
  -- nobody else has a right to the node
  have hothers : ∀ u, u ≠ t → (s.loc u).ref p + (s.loc u).pusher p + (s.loc u).deleter p = 0 := by
    intro u hu
    have g1 : (s.loc u).ref p ≤ (counts L s.loc p).refs :=
      Threads.le_sum (fun t => (s.loc t).ref p) u
    have g2 : (s.loc u).pusher p ≤ (counts L s.loc p).pushers :=
      Threads.le_sum (fun t => (s.loc t).pusher p) u
    have g3 : (s.loc u).deleter p + (s.loc t).deleter p ≤ (counts L s.loc p).deleters :=
      Threads.add_le_sum (fun t => (s.loc t).deleter p) hu
    have g4 : (Local.delete p id r : Local A V).deleter p = 1 := if_pos rfl
    rw [hl, g4] at g3
    omega
  refine ⟨hi.head, ?_, hi.stamps, fun b => ?_, locOk_update (hok _) fun u hu => ?_, ?_⟩
  · refine hi.linked.congr fun b hb => ?_
    have hbp : b ≠ p := by rintro rfl; have := linkedAt_pos.2 hb; omega
    rw [hheap, update_of_ne hbp]
  · rw [hheap, setLoc_loc, free_loc]
    by_cases hb : b = p
    · subst hb
      rw [update_self]
      exact ⟨hlk, by omega, by omega, by omega, by omega⟩
    · rw [update_of_ne hb]
      have := hi.addr b
      rwa [← hsame b hb] at this
  · rw [hheap]
    refine ⟨fun b id hb => ?_, fun q k nx id hq => ?_, (hi.loc u).stamp⟩
    · have hbp : b ≠ p := by
        rintro rfl
        rw [free_loc] at hb
        have h := means_role hb
        have := hothers u hu
        omega
      obtain ⟨m, hm, e⟩ := (hi.loc u).means b id hb
      exact ⟨m, by rw [update_of_ne hbp, hm], e⟩
    · have hqp : q ≠ p := by
        rintro rfl
        have h := hothers u hu
        rw [free_loc] at hq
        simp [hq, Local.ref] at h
      rw [update_of_ne hqp]; exact (hi.loc u).next q k nx id hq
  · rw [hids]
    refine (hi.ids.delete (i := n.id) (by simp [State.idAt, hn])).busy_le fun b => ?_
    by_cases hb : b = p
    · subst hb; simp only [busy, setLoc_loc, free_loc, counts_linked]; omega
    · exact (congrArg (fun c => c.linked + c.pushers) (hsame b hb)).le

/-- A step that changes `head_` and the chain. -/
theorem Inv.relink (hi : Inv s L) (L' : List (A × Nat)) (out : List (Option Nat)) {w : StampedPtr A}
    (hw : w.packed = wordOf L') (hL : Linked s.heap L') (hst : ∀ y ∈ L', y.2 ≤ maxStamp)
    (ha : ∀ b, AddrOk (s.heap b) (counts L' (update s.loc t x) b)) (hx : LocOk s.heap x)
    (hids : IdsOk s.idAt (busy L' (update s.loc t x)) s.allocs out s.deleted) :
    Inv (({ s.setHead w with popped := out } : State ι A V).setLoc t x) L' :=
  ⟨hw, hL, hst, ha, locOk_update hx fun u _ => hi.loc u, hids⟩

/-- The CAS of `Push`. -/
theorem Inv.publish (hi : Inv s L) {a : A} {id : Option Nat} {n : Node A V}
    (hl : s.loc t = .pushCas a id) (hn : s.heap a = some n) (hc : s.head = n.next.packed) :
    Inv ((s.setHead ⟨some a, 0⟩).setLoc t .idle) ((a, 0) :: L) := by
  refine hi.relink ((a, 0) :: L) s.popped rfl ⟨?_, hi.linked⟩ ?_ (fun b => ?_) ?_
    (hi.ids.busy_le fun b => ?_)
  · rw [hn, Option.map_some, Node.nextWord, ← hc, hi.head]
  · intro y hy
    rcases List.mem_cons.1 hy with rfl | hy
    · exact Nat.zero_le _
    · exact hi.stamps y hy
  · obtain ⟨c1, c2, c3, c4, c5, c6, c7, c8, c9⟩ :=
      counts_update L ((a, 0) :: L) s.loc t .idle b
    have h := hi.addr b
    simp only [hl, Local.ref, Local.winner, Local.winStamp, Local.pusher, Local.deleter] at c1 c2 c3 c4 c5
    simp only [counts_linked, counts_stamp, linkedAt, stampAt] at c6 c7
    by_cases hb : a = b
    · subst hb
      rw [hn] at h ⊢
      simp only [AddrOk, counts_linked, counts_stamp, linkedAt, stampAt, if_true] at h c4 ⊢
      omega
    · simp only [hb, if_false] at c4
      cases hbn : s.heap b with
      | none =>
        rw [hbn] at h
        simp only [AddrOk, counts_linked, linkedAt, hb, if_false] at h ⊢
        omega
      | some m =>
        rw [hbn] at h
        simp only [AddrOk, counts_linked, counts_stamp, linkedAt, stampAt, hb, if_false] at h ⊢
        omega
  · exact ⟨fun _ _ h => (by cases h), fun _ _ _ _ h => (by cases h), Nat.zero_le _⟩
  · have := (counts_update L ((a, 0) :: L) s.loc t .idle b).pushers
    simp only [hl, Local.pusher] at this
    simp only [busy, counts_linked, linkedAt]
    omega

/-- A successful `IncrementStamp` CAS. -/
theorem Inv.acquire (hi : Inv s L) {p : A} {k : Nat} (hl : s.loc t = .popInc p k)
    (hc : s.head = (StampedPtr.mk (some p) k).packed) (hf : k + 1 ≤ maxStamp) :
    ∃ L', Inv ((s.setHead (StampedPtr.mk (some p) k).incrementStamp).setLoc t
      (.popNext p (k + 1) (s.idAt p))) L' := by
  rw [packed_of_le (show (StampedPtr.mk (some p) k).stamp ≤ maxStamp by simp only; omega), hi.head]
    at hc
  obtain ⟨l, rfl⟩ := wordOf_eq_some hc
  obtain ⟨n, hn⟩ := hi.live_of_linked (a := p) (by simp)
  have hw : ((StampedPtr.mk (some p) k).incrementStamp).packed = wordOf ((p, k + 1) :: l) :=
    packed_of_le hf
  refine ⟨(p, k + 1) :: l, hi.relink _ s.popped hw hi.linked ?_ (fun b => ?_) ?_
    (hi.ids.busy_le fun b => ?_)⟩
  · intro y hy
    rcases List.mem_cons.1 hy with rfl | hy
    · exact hf
    · exact hi.stamps y (List.mem_cons_of_mem _ hy)
  · obtain ⟨c1, c2, c3, c4, c5, -, -, -, -⟩ :=
      counts_update ((p, k) :: l) ((p, k + 1) :: l) s.loc t (.popNext p (k + 1) (s.idAt p)) b
    have h := hi.addr b
    simp only [hl, Local.ref, Local.winner, Local.winStamp, Local.pusher, Local.deleter]
      at c1 c2 c3 c4 c5
    by_cases hb : p = b
    · subst hb
      rw [hn] at h ⊢
      simp only [AddrOk, counts_linked, counts_stamp, linkedAt, stampAt, if_true] at h c1 ⊢
      omega
    · simp only [hb, if_false] at c1
      cases hbn : s.heap b with
      | none =>
        rw [hbn] at h
        simp only [AddrOk, counts_linked, linkedAt, hb, if_false] at h ⊢
        omega
      | some m =>
        rw [hbn] at h
        simp only [AddrOk, counts_linked, counts_stamp, linkedAt, stampAt, hb, if_false] at h ⊢
        omega
  · refine ⟨fun a id ha => ?_, fun _ _ _ _ h => (by cases h), hf⟩
    simp only [Local.means, Local.accesses, Option.some.injEq, Prod.mk.injEq] at ha
    obtain ⟨rfl, rfl⟩ := ha
    exact ⟨n, hn, by simp [State.idAt, hn]⟩
  · have := (counts_update ((p, k) :: l) ((p, k + 1) :: l) s.loc t
      (.popNext p (k + 1) (s.idAt p)) b).pushers
    simp only [hl, Local.pusher] at this
    simp only [busy, counts_linked, linkedAt]
    omega

/-- The successful CAS of `TryPop`: the thread becomes the winner. -/
theorem Inv.unlink (hi : Inv s L) {p : A} {k : Nat} {nx : StampedPtr A} {id : Option Nat}
    (hl : s.loc t = .popUnlink p k nx id) (hc : s.head = (StampedPtr.mk (some p) k).packed) :
    ∃ L', Inv (((s.setHead nx).addPopped id).setLoc t (.popMove p k id)) L' := by
  have hloc := hi.loc t
  rw [hl] at hloc
  rw [packed_of_le hloc.stamp, hi.head] at hc
  obtain ⟨l, rfl⟩ := wordOf_eq_some hc
  obtain ⟨n, hn, rfl⟩ := hloc.means p id rfl
  have hw : nx.packed = wordOf l := by
    have h1 := hloc.next p k nx _ rfl
    have h2 := hi.linked.1
    rw [hn, Option.map_some, Option.some.injEq] at h1 h2
    rw [← h1]; exact h2
  have hcounts := fun b => counts_update ((p, k) :: l) l s.loc t (.popMove p k (some n.id)) b
  have hp := hi.addr p
  rw [hn] at hp
  simp only [AddrOk, counts_linked, counts_stamp, linkedAt, stampAt, if_true] at hp
  have hlp : linkedAt l p = 0 := by omega
  refine ⟨l, hi.relink _ (some n.id :: s.popped) hw hi.linked.2
    (fun y hy => hi.stamps y (List.mem_cons_of_mem _ hy)) (fun b => ?_) ?_
    (IdsOk.pop (p := p) (hi.ids.busy_le fun b => ?_) (by simp [State.idAt, hn]) ?_)⟩
  · obtain ⟨c1, c2, c3, c4, c5, -, -, c8, -⟩ := hcounts b
    have h := hi.addr b
    simp only [hl, Local.ref, Local.winner, Local.winStamp, Local.pusher, Local.deleter]
      at c1 c2 c3 c4 c5
    by_cases hb : p = b
    · subst hb
      have := stampAt_eq_zero hlp
      rw [hn]
      simp only [AddrOk, counts_linked, counts_stamp, if_true] at c1 c2 c3 ⊢
      omega
    · simp only [hb, if_false] at c1 c2 c3
      cases hbn : s.heap b with
      | none =>
        rw [hbn] at h
        simp only [AddrOk, counts_linked, linkedAt, hb, if_false] at h ⊢
        omega
      | some m =>
        rw [hbn] at h
        simp only [AddrOk, counts_linked, counts_stamp, linkedAt, stampAt, hb, if_false] at h ⊢
        omega
  · refine ⟨fun a id ha => ?_, fun _ _ _ _ h => (by cases h), Nat.zero_le _⟩
    simp only [Local.means, Local.accesses, Option.some.injEq, Prod.mk.injEq] at ha
    obtain ⟨rfl, rfl⟩ := ha
    exact ⟨n, hn, rfl⟩
  · have := (hcounts b).pushers
    simp only [hl, Local.pusher] at this
    simp only [busy, counts_linked, linkedAt]
    omega
  · have := (hcounts p).pushers
    simp only [hl, Local.pusher] at this
    simp only [busy, counts_linked, hlp]
    omega

/-! ## Releases, and all steps together -/

/-- A release: `inner_counter` gets `i`, and the thread deletes the node exactly when `i` is 0. -/
theorem Inv.release (hi : Inv s L) (w ws : Nat) (i : Int) (hl : s.loc t = l) {p : A} {n : Node A V}
    (hn : s.heap p = some n) (hlp : l.roles p = (1, w, ws, 0, 0)) (hw : w = 0 → ws = 0)
    (hiw : i = n.inner + ws - 1)
    (hxp : i = 0 ∧ x.roles p = (0, 0, 0, 0, 1) ∨ i ≠ 0 ∧ x.roles p = (0, 0, 0, 0, 0))
    (hr : ∀ b, b ≠ p → x.roles b = l.roles b)
    (hx : ∀ heap, heap p = some { n with inner := i } → LocOk heap x) :
    Inv ((s.setNode p { n with inner := i }).setLoc t x) L := by
  have hp := hi.addr p
  rw [hn] at hp
  obtain ⟨c1, c2, c3, c4, c5, c6, c7, c8, c9⟩ := counts_update L L s.loc t x p
  simp only [Local.roles, Prod.mk.injEq] at hlp hxp
  obtain ⟨l1, l2, l3, l4, l5⟩ := hlp
  rw [hl, l1] at c1
  rw [hl, l2] at c2
  rw [hl, l3] at c3
  rw [hl, l4] at c4
  rw [hl, l5] at c5
  simp only [AddrOk, counts_linked, counts_stamp] at hp c6 c7
  have hpush : x.pusher p = l.pusher p := by omega
  refine hi.write hl hn rfl (.inl rfl) ?_ hpush hr (hx _ (update_self ..))
  simp only [AddrOk, counts_linked, counts_stamp]
  omega

omit [DecidableEq A] [Fintype ι] [DecidableEq ι] in
/-- A thread between two accesses. -/
theorem locOk_of_idle {heap : A → Option (Node A V)} (h1 : x.means = none) (h2 : x.stamp = 0) :
    LocOk heap x :=
  ⟨fun a id h => (by rw [h1] at h; cases h), fun p k nx id h => (by subst h; cases h1),
    h2 ▸ Nat.zero_le _⟩

omit [DecidableEq A] [Fintype ι] [DecidableEq ι] in
/-- A thread about to access a live node that it means. -/
theorem locOk_of_live {heap : A → Option (Node A V)} {a : A} {n : Node A V} {i : Nat}
    (h1 : x.means = some (a, some i)) (h2 : heap a = some n) (h2' : n.id = i)
    (h3 : ∀ p k nx id, x ≠ .popUnlink p k nx id) (h4 : x.stamp ≤ maxStamp) : LocOk heap x :=
  ⟨fun b id h => by
    rw [h1, Option.some.injEq, Prod.mk.injEq] at h
    obtain ⟨rfl, rfl⟩ := h
    exact ⟨n, h2, h2' ▸ rfl⟩, fun p k nx id h => absurd h (h3 p k nx id), h4⟩

omit [DecidableEq ι] in
theorem inv_init : Inv (init : State ι A V) [] where
  head := rfl
  linked := trivial
  stamps _ h := by cases h
  addr b := by
    simp [init, AddrOk, counts, linkedAt, Local.ref, Local.winner, Local.pusher, Local.deleter]
  loc _ := locOk_of_idle rfl rfl
  ids := ⟨fun _ _ h => (by cases h), fun _ _ _ h => (by cases h), List.nodup_nil,
    fun _ h => (by cases h), fun _ h => (by cases h), fun _ h => (by cases h)⟩

/-- Every atomic step keeps the invariant, as long as the stamps fit into 16 bits. -/
theorem inv_go {s' : State ι A V} {spurious : Bool} (hi : Inv s L)
    (hok : StampFits s (.go t spurious)) (h : go s t spurious = some s') : ∃ L', Inv s' L' := by
  have hloc := hi.loc t
  unfold go at h
  cases hl : s.loc t <;> rw [hl] at h hloc <;> simp only at h
  case idle => cases h
  case pushLoad a id =>
    obtain ⟨n, hn, rfl⟩ := hloc.means a id rfl
    rw [hn, Option.map_some, Option.some.injEq] at h
    subst h
    have := hi.addr a
    rw [hn, ← counts_same (x := .pushCas a (some n.id)) hl rfl] at this
    exact ⟨L, hi.write hl hn rfl (.inr (if_pos rfl)) this rfl (fun _ _ => rfl)
      (locOk_of_live rfl (update_self ..) rfl (by simp) (Nat.zero_le _))⟩
  case pushCas a id =>
    obtain ⟨n, hn, rfl⟩ := hloc.means a id rfl
    rw [hn, Option.map_some, Option.some.injEq] at h
    subst h
    split
    · rename_i hc
      exact ⟨_, hi.publish hl hn hc.2⟩
    · have := hi.addr a
      rw [hn, ← counts_same (x := .pushCas a (some n.id)) hl rfl] at this
      exact ⟨L, hi.write hl hn rfl (.inr (if_pos rfl)) this rfl (fun _ _ => rfl)
        (locOk_of_live rfl (update_self ..) rfl (by simp) (Nat.zero_le _))⟩
  case popLoad =>
    cases hp : s.head.raw <;> rw [hp] at h <;> obtain rfl := Option.some.inj h
    · exact ⟨L, hi.move hl (fun _ => rfl) (locOk_of_idle rfl rfl)⟩
    · refine ⟨L, hi.move hl (fun _ => rfl) ⟨fun _ _ h => (by cases h), fun _ _ _ _ h => (by cases h), ?_⟩⟩
      rw [hi.head]
      exact wordOf_stamp_le hi.stamps
  case popInc p k =>
    split at h <;> rename_i hc <;> obtain rfl := Option.some.inj h
    · refine hi.acquire hl hc.2 (hok p k hl ?_)
      rw [hc.2, packed_of_le hloc.stamp]
    · exact ⟨L, hi.move hl (fun _ => rfl) (locOk_of_idle rfl rfl)⟩
  case popNext p k id =>
    obtain ⟨n, hn, rfl⟩ := hloc.means p id rfl
    rw [hn, Option.map_some, Option.some.injEq] at h
    subst h
    refine ⟨L, hi.move hl (fun _ => rfl) ⟨hloc.means, fun q j nx id e => ?_, hloc.stamp⟩⟩
    cases e
    rw [hn, Option.map_some]
  case popUnlink p k nx id =>
    split at h <;> rename_i hc <;> obtain rfl := Option.some.inj h
    · exact hi.unlink hl hc.2
    · exact ⟨L, hi.move hl (fun _ => rfl) ⟨hloc.means, fun _ _ _ _ h => (by cases h), Nat.zero_le _⟩⟩
  case popMove p k id =>
    obtain ⟨n, hn, rfl⟩ := hloc.means p id rfl
    rw [hn, Option.map_some, Option.some.injEq] at h
    subst h
    exact ⟨L, hi.move hl (fun _ => rfl) (locOk_of_live rfl hn rfl (by simp) (Nat.zero_le _))⟩
  case popAdd p k id v =>
    obtain ⟨n, hn, rfl⟩ := hloc.means p id rfl
    rw [hn, Option.map_some, Option.some.injEq] at h
    subst h
    refine ⟨L, hi.release 1 k (n.inner + ((k : Int) - 1)) hl hn ?_
      (by simp) (by omega) ?_ (fun b hb => ?_) fun heap hh => ?_⟩
    · simp [Local.roles, Local.ref, Local.winner, Local.winStamp, Local.pusher, Local.deleter]
    · split <;> rename_i hz
      · exact .inl ⟨by omega, by
          simp [Local.roles, Local.ref, Local.winner, Local.winStamp, Local.pusher, Local.deleter]⟩
      · exact .inr ⟨by omega, rfl⟩
    · split <;> simp [Local.roles, Local.ref, Local.winner, Local.winStamp, Local.pusher,
        Local.deleter, Ne.symm hb]
    · split
      · exact locOk_of_live rfl hh rfl (by simp) (Nat.zero_le _)
      · exact locOk_of_idle rfl rfl
  case popSub p id =>
    obtain ⟨n, hn, rfl⟩ := hloc.means p id rfl
    rw [hn, Option.map_some, Option.some.injEq] at h
    subst h
    refine ⟨L, hi.release 0 0 (n.inner - 1) hl hn ?_
      (by simp) (by simp) ?_ (fun b hb => ?_) fun heap hh => ?_⟩
    · simp [Local.roles, Local.ref, Local.winner, Local.winStamp, Local.pusher, Local.deleter]
    · split <;> rename_i hz
      · exact .inl ⟨by omega, by
          simp [Local.roles, Local.ref, Local.winner, Local.winStamp, Local.pusher, Local.deleter]⟩
      · exact .inr ⟨by omega, rfl⟩
    · split <;> simp [Local.roles, Local.ref, Local.winner, Local.winStamp, Local.pusher,
        Local.deleter, Ne.symm hb]
    · split
      · exact locOk_of_live rfl hh rfl (by simp) (Nat.zero_le _)
      · exact locOk_of_idle rfl rfl
  case delete p id r =>
    obtain ⟨n, hn, rfl⟩ := hloc.means p id rfl
    rw [hn, Option.map_some, Option.some.injEq] at h
    subst h
    cases r with
    | none => exact ⟨L, hi.delete hl hn (fun _ => rfl) fun _ => locOk_of_idle rfl rfl⟩
    | some v => exact ⟨L, hi.delete hl hn (fun _ => rfl) fun _ => locOk_of_idle rfl rfl⟩
  case popDone r =>
    obtain rfl := Option.some.inj h
    exact ⟨L, hi.move hl (fun _ => rfl) (locOk_of_idle rfl rfl)⟩

theorem inv_step {s' : State ι A V} {a : Act ι A V} (hi : Inv s L) (hok : StampFits s a)
    (h : step s a = some s') : ∃ L', Inv s' L' := by
  cases a with
  | push t v a =>
    simp only [step] at h
    split at h
    · rename_i hl ha
      obtain rfl := Option.some.inj h
      exact ⟨L, hi.push hl ha v⟩
    · cases h
  | pop t =>
    simp only [step] at h
    split at h
    · rename_i hl
      obtain rfl := Option.some.inj h
      exact ⟨L, hi.move hl (fun _ => rfl) (locOk_of_idle rfl rfl)⟩
    · cases h
  | go t spurious => exact inv_go hi hok h

theorem inv_of_reach {s : State ι A V} (r : Reach (system ι A V) StampFits s) :
    ∃ L, Inv s L :=
  r.invariant (I := fun s => ∃ L, Inv s L) (fun _ h => ⟨[], by rw [h]; exact inv_init⟩)
    fun _ _ _ ⟨_, hi⟩ hok h => inv_step hi hok h

/-! ## What it means for the nodes -/

omit [DecidableEq ι] in
theorem Inv.not_deleted (hi : Inv s L) {a : A} {n : Node A V} (hn : s.heap a = some n) :
    n.id ∉ s.deleted :=
  fun hd => (hi.ids.deleted n.id hd).2 a (by simp [State.idAt, hn])

omit [DecidableEq ι] in
/-- With no operation in progress, the nodes on the heap are those of the chain. -/
theorem Inv.linked_of_idle (hi : Inv s L) (hidle : ∀ t, s.loc t = .idle) {a : A} {n : Node A V}
    (hn : s.heap a = some n) : a ∈ L.map Prod.fst := by
  have h := hi.addr a
  rw [hn] at h
  rw [← linkedAt_pos]
  simp only [AddrOk, counts, hidle, Local.ref, Local.winner, Local.pusher, Local.deleter,
    Finset.sum_const_zero] at h
  omega

omit [DecidableEq ι] in
/-- With no operation in progress, a popped node has been deleted. -/
theorem Inv.deleted_of_idle (hi : Inv s L) (hidle : ∀ t, s.loc t = .idle) {x : Option Nat}
    (hx : x ∈ s.popped) : ∃ i, x = some i ∧ i ∈ s.deleted := by
  obtain ⟨i, rfl, hlt, hbusy⟩ := hi.ids.popped x hx
  refine ⟨i, rfl, (hi.ids.all i hlt).resolve_right fun ⟨a, ha⟩ => ?_⟩
  obtain ⟨n, hn, -⟩ := Option.map_eq_some_iff.1 ha
  have h1 := linkedAt_pos.2 (hi.linked_of_idle hidle hn)
  have h2 := hbusy a ha
  simp only [busy, counts_linked] at h2
  omega

/-- In every interleaving in which no stamp passes 65535: no node is deleted twice; a thread
about to read, write or delete a node finds the node it means, which has not been deleted; and
when no operation is in progress every popped node has been deleted and every node reachable
from `head_` is alive. -/
theorem deletes_nodes_once_unused {s : State ι A V} (r : Reach (system ι A V) StampFits s) :
    s.deleted.Nodup ∧
    (∀ t a id, (s.loc t).accesses = some (a, id) →
      ∃ n, s.heap a = some n ∧ id = some n.id ∧ n.id ∉ s.deleted) ∧
    ((∀ t, s.loc t = .idle) →
      (∀ x ∈ s.popped, ∃ i, x = some i ∧ i ∈ s.deleted) ∧
      ∀ a, ReachableFrom s.heap s.head.raw a →
        ∃ n, s.heap a = some n ∧ n.id ∉ s.deleted) := by
  obtain ⟨L, hi⟩ := inv_of_reach r
  refine ⟨hi.ids.nodup, fun t a id ha => ?_, fun hidle => ⟨fun x hx => hi.deleted_of_idle hidle hx,
    fun a ha => ?_⟩⟩
  · have hm : (s.loc t).means = some (a, id) := by
      cases hl : s.loc t <;> rw [hl] at ha <;> first | exact ha | cases ha
    obtain ⟨n, hn, hid⟩ := (hi.loc t).means a id hm
    exact ⟨n, hn, hid, hi.not_deleted hn⟩
  · obtain ⟨n, hn⟩ := hi.live_of_linked (hi.linked.reachable ha (by rw [hi.head]))
    exact ⟨n, hn, hi.not_deleted hn⟩

/-- `idle`, as a test. -/
def Local.isIdle : Local A V → Bool
  | .idle => true
  | _ => false

omit [DecidableEq A] in
theorem Local.idle_of_isIdle {l : Local A V} (h : l.isIdle = true) : l = .idle := by
  cases l <;> first | rfl | cases h

/-- `StampFits`, as a test. -/
def stampCheck (s : State ι A V) : Act ι A V → Bool
  | .go t _ => match s.loc t with
    | .popInc _ k => decide (k + 1 ≤ maxStamp)
    | _ => true
  | _ => true

omit [DecidableEq A] [Fintype ι] [DecidableEq ι] in
theorem stampFits_of_check (s : State ι A V) (a : Act ι A V) (h : stampCheck s a = true) :
    StampFits s a := by
  cases a with
  | push | pop => trivial
  | go t sp =>
    intro p k hl _
    simp only [stampCheck, hl, decide_eq_true_eq] at h
    exact h

/-- Thread 0 pushes two nodes; thread 1 acquires the top one and stalls while thread 0 pops it;
thread 1 then releases it, deletes it, and pops the other one. -/
def pushesAndPops : List (Act (Fin 2) (Fin 2) Nat) :=
  [Act.push 0 5 0, Act.go 0 false, Act.go 0 false, Act.push 0 6 1, Act.go 0 false, Act.go 0 true, Act.go 0 false,
      Act.pop 1]
    ++ List.replicate 3 (Act.go 1 false) ++ [Act.pop 0] ++ List.replicate 7 (Act.go 0 false)
    ++ List.replicate 11 (Act.go 1 false)

theorem deletes_pushed_nodes :
    ∃ s, Reach (system (Fin 2) (Fin 2) Nat) StampFits s ∧ (s.popped = [some 0, some 1] ∧
      ∀ t, s.loc t = .idle) ∧ s.deleted.Nodup ∧ ∀ x ∈ s.popped, ∃ i, x = some i ∧ i ∈ s.deleted := by
  obtain ⟨s, r, hp⟩ := Reach.of_exec (system (Fin 2) (Fin 2) Nat) pushesAndPops
    (fun s => decide (s.popped = [some 0, some 1]) && (s.loc 0).isIdle && (s.loc 1).isIdle)
    stampFits_of_check rfl (by decide)
  simp only [Bool.and_eq_true, decide_eq_true_eq] at hp
  have hidle : ∀ t, s.loc t = .idle := by
    intro t
    fin_cases t
    · exact Local.idle_of_isIdle hp.1.2
    · exact Local.idle_of_isIdle hp.2
  have h := deletes_nodes_once_unused r
  exact ⟨s, r, ⟨hp.1.1, hidle⟩, h.1, (h.2.2 hidle).1⟩

end Stack
