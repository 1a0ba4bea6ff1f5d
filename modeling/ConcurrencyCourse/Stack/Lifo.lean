import ConcurrencyCourse.Lib.Calls
import ConcurrencyCourse.Stack.Reclaim

/-!
# The stamped Treiber stack refines a LIFO stack

The steps at which the calls take effect (lockfree/stack/lock_free_stack.hpp):

| here | there |
|---|---|
| `.push` | `head_.CompareExchangeWeak(new_head->next, new_head)` of `Push` succeeds |
| `.pop` | `head_.CompareExchangeWeak(tmp_head, old_head->next)` of `TryPop` succeeds |
| `.empty` | `head_.Load()` of `TryPop` returns `nullptr` |

A value is on the stack with the number of its node, so the same value may be pushed again. `contents` reads the
stack from the heap; `Inv.contents_eq` says that it is the chain of `Inv`, and the two CAS move its top (`lifo_go`).
-/

namespace Stack

open Transition StampedPtr Function

variable {ι A V : Type}

/-! ## The contents -/

/-- What a walk along `next` sees of a node. -/
def Node.view (n : Node A V) : Nat × V × StampedPtr A := (n.id, n.value, n.next)

/-- The nodes from a raw pointer on, along `next`: numbers and values. -/
def walk (heap : A → Option (Node A V)) : Nat → Option A → List (Nat × V)
  | fuel + 1, some a => match heap a with
    | some n => (n.id, n.value) :: walk heap fuel n.next.raw
    | none => []
  | _, _ => []

/-- The top is the first one. There are at most `allocs` nodes. -/
def State.contents (s : State ι A V) : List (Nat × V) := walk s.heap s.allocs s.head.raw

/-- The nodes of a chain. -/
def listed (heap : A → Option (Node A V)) (L : List (A × Nat)) : List (Nat × V) :=
  (L.map Prod.fst).filterMap fun a => (heap a).map fun n => (n.id, n.value)

theorem walk_eq {heap : A → Option (Node A V)} {L : List (A × Nat)} (h : Linked heap L) {fuel : Nat}
    (hf : L.length ≤ fuel) : walk heap fuel (wordOf L).raw = listed heap L := by
  induction L generalizing fuel with
  | nil => cases fuel <;> rfl
  | cons x L ih =>
    obtain ⟨a, k⟩ := x
    obtain ⟨fuel, rfl⟩ : ∃ f, fuel = f + 1 := ⟨fuel - 1, by simp at hf; omega⟩
    obtain ⟨n, hn, hw⟩ := Option.map_eq_some_iff.1 h.1
    have hraw : n.next.raw = (wordOf L).raw := by rw [← hw]; rfl
    have hl : listed heap ((a, k) :: L) = (n.id, n.value) :: listed heap L := by simp [listed, hn]
    change walk heap (fuel + 1) (some a) = _
    rw [walk, hn, hl, ← ih h.2 (by simpa using hf), ← hraw]

/-- The contents are those of any chain at `head_`. -/
theorem contents_of_linked {s : State ι A V} {L : List (A × Nat)} (h : Linked s.heap L)
    (hh : s.head.raw = (wordOf L).raw) (hf : L.length ≤ s.allocs) : s.contents = listed s.heap L := by
  rw [State.contents, hh, walk_eq h hf]

section chain

variable [DecidableEq A]

theorem linkedAt_eq_count (L : List (A × Nat)) (b : A) : linkedAt L b = (L.map Prod.fst).count b := by
  induction L with
  | nil => rfl
  | cons x L ih =>
    rw [linkedAt, ih, List.map_cons, List.count_cons]
    by_cases hx : x.1 = b <;> simp [hx, Nat.add_comm]

variable [Fintype ι] {s : State ι A V} {L : List (A × Nat)} {t : ι}

theorem Inv.nodup (hi : Inv s L) : (L.map Prod.fst).Nodup := by
  refine List.nodup_iff_count_le_one.2 fun b => ?_
  rw [← linkedAt_eq_count]
  have h := hi.addr b
  cases hn : s.heap b <;> rw [hn] at h <;> simp only [AddrOk, counts] at h <;> omega

/-- The numbers of the nodes on the stack. -/
theorem Inv.listed_ids (hi : Inv s L) :
    ((listed s.heap L).map Prod.fst).Nodup ∧ ∀ i ∈ (listed s.heap L).map Prod.fst,
      ∃ a ∈ L.map Prod.fst, s.idAt a = some i := by
  have hids : (listed s.heap L).map Prod.fst = (L.map Prod.fst).filterMap s.idAt := by
    rw [listed, List.map_filterMap]
    refine List.filterMap_congr fun a _ => ?_
    rw [Option.map_map]
    rfl
  rw [hids]
  exact ⟨hi.nodup.filterMap fun a b i ha hb => hi.ids.inj a b i ha hb, fun i hm => List.mem_filterMap.1 hm⟩

theorem Inv.length_le (hi : Inv s L) : L.length ≤ s.allocs := by
  obtain ⟨hnodup, hmem⟩ := hi.listed_ids
  have hlen : (listed s.heap L).length = (L.map Prod.fst).length := by
    refine List.filterMap_length_eq_length.2 fun a ha => ?_
    obtain ⟨n, hn⟩ := hi.live_of_linked ha
    rw [hn]
    rfl
  have hle : ((listed s.heap L).map Prod.fst).length ≤ (List.range s.allocs).length :=
    (hnodup.subperm fun i hm => by
      obtain ⟨a, -, ha⟩ := hmem i hm
      exact List.mem_range.2 (hi.ids.lt a i ha)).length_le
  simp only [List.length_map, List.length_range] at hle hlen
  omega

theorem Inv.contents_eq (hi : Inv s L) : s.contents = listed s.heap L :=
  contents_of_linked hi.linked (by rw [hi.head]) hi.length_le

/-- A node that is being pushed or deleted is not in the chain. -/
theorem Inv.not_linked (hi : Inv s L) {a : A} (h : 0 < (s.loc t).pusher a + (s.loc t).deleter a) :
    a ∉ L.map Prod.fst := by
  intro hm
  have h1 := linkedAt_pos.2 hm
  have h2 : (s.loc t).pusher a ≤ (counts L s.loc a).pushers := Threads.le_sum (fun t => (s.loc t).pusher a) t
  have h3 : (s.loc t).deleter a ≤ (counts L s.loc a).deleters := Threads.le_sum (fun t => (s.loc t).deleter a) t
  have ha := hi.addr a
  cases hn : s.heap a <;> rw [hn] at ha <;> simp only [AddrOk, counts_linked] at ha <;> omega

/-- A step that leaves `head_` and the nodes of the chain alone. -/
theorem Inv.contents_kept (hi : Inv s L) {s' : State ι A V} (hh : s'.head = s.head) (ha : s.allocs ≤ s'.allocs)
    (hv : ∀ a ∈ L.map Prod.fst, (s'.heap a).map Node.view = (s.heap a).map Node.view) :
    s'.contents = s.contents := by
  have hmap : ∀ {β : Type} (f : Nat × V × StampedPtr A → β), ∀ a ∈ L.map Prod.fst,
      (s'.heap a).map (fun n => f n.view) = (s.heap a).map fun n => f n.view := by
    intro β f a hm
    have h := congrArg (Option.map f) (hv a hm)
    rwa [Option.map_map, Option.map_map] at h
  have hL : Linked s'.heap L := hi.linked.congr (hmap fun x => x.2.2.packed)
  rw [hi.contents_eq, contents_of_linked hL (by rw [hh, hi.head]) (hi.length_le.trans ha)]
  exact List.filterMap_congr (hmap fun x => (x.1, x.2.1))

end chain

/-! ## The events -/

variable [DecidableEq A]

/-- The step at which a call takes effect. -/
def event (s : State ι A V) : Act ι A V → Option (ι × Lifo.Event (Nat × V))
  | .go t spurious => match s.loc t with
    | .pushCas a _ => match s.heap a with
      | some n => if spurious = false ∧ s.head = n.next.packed then some (t, .push (n.id, n.value)) else none
      | none => none
    | .popLoad => if s.head.raw = none then some (t, .empty) else none
    | .popUnlink p k _ _ =>
      if spurious = false ∧ s.head = (StampedPtr.mk (some p) k).packed then
        (s.heap p).map fun n => (t, .pop (n.id, n.value))
      else none
    | _ => none
  | _ => none

/-- The thread that takes the step. -/
def Act.thread : Act ι A V → ι
  | .push t _ _ | .pop t | .go t _ => t

section steps

variable [DecidableEq ι] [Fintype ι] {s s' : State ι A V} {L : List (A × Nat)} {t : ι} {x : Local A V}

/-- A step that writes to the node at `p`. -/
theorem Inv.contents_setNode (hi : Inv s L) {p : A} {n n' : Node A V} (hn : s.heap p = some n)
    (hv : n'.view = n.view ∨ 0 < (s.loc t).pusher p) : ((s.setNode p n').setLoc t x).contents = s.contents := by
  refine hi.contents_kept rfl le_rfl fun a ha => ?_
  rw [setLoc_heap, setNode_heap]
  by_cases hap : a = p
  · subst hap
    rcases hv with hv | hv
    · rw [update_self, hn, Option.map_some, Option.map_some, hv]
    · exact absurd ha (hi.not_linked (Nat.add_pos_left hv _))
  · rw [update_of_ne hap]

/-- The CAS of `Push` puts the node on top. -/
theorem Inv.contents_publish (hi : Inv s L) {a : A} {id : Option Nat} {n : Node A V}
    (hl : s.loc t = .pushCas a id) (hn : s.heap a = some n) (hc : s.head = n.next.packed) :
    ((s.setHead ⟨some a, 0⟩).setLoc t .idle).contents = (n.id, n.value) :: s.contents := by
  rw [(hi.publish hl hn hc).contents_eq, hi.contents_eq]
  change listed s.heap ((a, 0) :: L) = _
  simp [listed, hn]

/-- The CAS of `TryPop` takes the top away. -/
theorem Inv.contents_unlink (hi : Inv s L) {p : A} {k : Nat} {nx : StampedPtr A} {id : Option Nat} {n : Node A V}
    (hl : s.loc t = .popUnlink p k nx id) (hc : s.head = (StampedPtr.mk (some p) k).packed)
    (hn : s.heap p = some n) :
    s.contents = (n.id, n.value) :: (((s.setHead nx).addPopped id).setLoc t (.popMove p k id)).contents := by
  have hloc := hi.loc t
  rw [hl] at hloc
  have hhead := hi.head
  rw [hc, packed_of_le hloc.stamp] at hhead
  obtain ⟨l, rfl⟩ := wordOf_eq_some hhead.symm
  -- the reference of this thread has kept the node, and with it `next`
  have hnext := hloc.next p k nx id rfl
  have hw := hi.linked.1
  rw [hn, Option.map_some, Option.some.injEq] at hnext hw
  have hlen := hi.length_le
  rw [List.length_cons] at hlen
  have htail : (((s.setHead nx).addPopped id).setLoc t (.popMove p k id)).contents = listed s.heap l :=
    contents_of_linked hi.linked.2 (by rw [← hw, ← hnext]; rfl) (Nat.le_of_succ_le hlen)
  rw [hi.contents_eq, htail]
  simp [listed, hn]

/-- Every atomic step does to the contents what its event says. -/
theorem lifo_go {spurious : Bool} (hi : Inv s L) (h : go s t spurious = some s') :
    Applies Lifo.spec (event s (.go t spurious)) s.contents s'.contents := by
  have hloc := hi.loc t
  unfold go at h
  simp only [event]
  cases hl : s.loc t <;> rw [hl] at h hloc <;> simp only at h ⊢
  case idle => cases h
  case pushLoad a id =>
    obtain ⟨n, hn, rfl⟩ := hloc.means a id rfl
    rw [hn, Option.map_some, Option.some.injEq] at h
    subst h
    exact hi.contents_setNode hn (.inr (by rw [hl, Local.pusher, if_pos rfl]; exact Nat.one_pos))
  case pushCas a id =>
    obtain ⟨n, hn, rfl⟩ := hloc.means a id rfl
    rw [hn, Option.map_some, Option.some.injEq] at h
    subst h
    rw [hn]
    by_cases hc : spurious = false ∧ s.head = n.next.packed
    · simp only [if_pos hc]
      exact hi.contents_publish hl hn hc.2
    · simp only [if_neg hc]
      exact hi.contents_setNode hn (.inr (by rw [hl, Local.pusher, if_pos rfl]; exact Nat.one_pos))
  case popLoad =>
    cases hp : s.head.raw <;> rw [hp] at h <;> obtain rfl := Option.some.inj h
    · have hempty : s.contents = [] := by
        rw [State.contents, hp]
        cases s.allocs <;> rfl
      exact ⟨hempty, hempty⟩
    · rfl
  case popInc p k =>
    split at h <;> obtain rfl := Option.some.inj h
    · rename_i hc
      change walk s.heap s.allocs (some p) = walk s.heap s.allocs s.head.raw
      rw [hc.2]
      rfl
    · rfl
  case popNext p k id =>
    obtain ⟨n, -, rfl⟩ := Option.map_eq_some_iff.1 h
    rfl
  case popUnlink p k nx id =>
    by_cases hc : spurious = false ∧ s.head = (StampedPtr.mk (some p) k).packed
    · obtain ⟨n, hn, -⟩ := hloc.means p id rfl
      rw [if_pos hc, Option.some.injEq] at h
      subst h
      rw [if_pos hc, hn]
      exact hi.contents_unlink hl hc.2 hn
    · rw [if_neg hc, Option.some.injEq] at h
      subst h
      rw [if_neg hc]
      rfl
  case popMove p k id =>
    obtain ⟨n, -, rfl⟩ := Option.map_eq_some_iff.1 h
    rfl
  case popAdd p k id v =>
    obtain ⟨n, hn, rfl⟩ := Option.map_eq_some_iff.1 h
    exact hi.contents_setNode hn (.inl rfl)
  case popSub p id =>
    obtain ⟨n, hn, rfl⟩ := Option.map_eq_some_iff.1 h
    exact hi.contents_setNode hn (.inl rfl)
  case delete p id r =>
    obtain ⟨n, hn, rfl⟩ := Option.map_eq_some_iff.1 h
    refine hi.contents_kept rfl le_rfl fun a ha => ?_
    rw [setLoc_heap, free_heap, update_of_ne]
    rintro rfl
    exact hi.not_linked (t := t) (by rw [hl, Local.deleter, if_pos rfl]; omega) ha
  case popDone r =>
    obtain rfl := Option.some.inj h
    rfl

theorem lifo_step {a : Act ι A V} (hi : Inv s L) (h : step s a = some s') :
    Applies Lifo.spec (event s a) s.contents s'.contents := by
  cases a with
  | push t v a =>
    simp only [step] at h
    split at h
    · rename_i hl ha
      obtain rfl := Option.some.inj h
      refine hi.contents_kept rfl (Nat.le_succ _) fun b hb => ?_
      rw [setLoc_heap, alloc_heap, update_of_ne]
      rintro rfl
      exact hi.not_mem_of_free ha hb
    · cases h
  | pop t =>
    simp only [step] at h
    split at h
    · obtain rfl := Option.some.inj h
      rfl
    · cases h
  | go t spurious => exact lifo_go hi h

/-! ## The calls -/

def begins (t : ι) : Act ι A V → Bool
  | .push u _ _ | .pop u => decide (u = t)
  | .go _ _ => false

def calls : Calls (State ι A V) (Act ι A V) ι (Lifo.Event (Nat × V)) := ⟨begins, event⟩

/-- What the current call of thread `t`, or the last one, has done so far. -/
def CallOk (t : ι) (h : History (State ι A V) (Act ι A V)) (s : State ι A V) : Local A V → Prop
  | .idle => ∀ v a, calls.last t h = some (.push t v a) → ∃ n, calls.events t h = [.push (n, v)]
  | .pushLoad a _ | .pushCas a _ =>
    (∃ n, s.heap a = some n ∧ calls.last t h = some (.push t n.value a)) ∧ calls.events t h = []
  | .popLoad | .popInc _ _ | .popNext _ _ _ | .popUnlink _ _ _ _ | .popSub _ _ | .delete _ _ none =>
    calls.last t h = some (.pop t) ∧ calls.events t h = []
  | .popMove p _ _ =>
    calls.last t h = some (.pop t) ∧ ∃ n, s.heap p = some n ∧ calls.events t h = [.pop (n.id, n.value)]
  | .popAdd _ _ _ v | .delete _ _ (some v) | .popDone (some v) =>
    calls.last t h = some (.pop t) ∧ ∃ n, calls.events t h = [.pop (n, v)]
  | .popDone none => calls.last t h = some (.pop t) ∧ calls.events t h = [.empty]

variable {h : History (State ι A V) (Act ι A V)} {a : Act ι A V}

/-- What a step may do to the heap. -/
inductive Writes (heap : A → Option (Node A V)) : (A → Option (Node A V)) → Prop where
  | nothing : Writes heap heap
  | node {p : A} {n n' : Node A V} : heap p = some n → n'.id = n.id → n'.value = n.value →
      Writes heap (update heap p (some n'))
  | new {p : A} {n : Node A V} : heap p = none → Writes heap (update heap p (some n))
  | delete {p : A} : Writes heap (update heap p none)

omit [Fintype ι] in
theorem step_writes (hs : step s a = some s') :
    (∃ x, s'.loc = update s.loc a.thread x) ∧ Writes s.heap s'.heap := by
  cases a with
  | push t v a =>
    simp only [step] at hs
    split at hs
    · rename_i ha
      obtain rfl := Option.some.inj hs
      exact ⟨⟨_, rfl⟩, .new ha⟩
    · cases hs
  | pop t =>
    simp only [step] at hs
    split at hs
    · obtain rfl := Option.some.inj hs
      exact ⟨⟨_, rfl⟩, .nothing⟩
    · cases hs
  | go t sp =>
    simp only [step, go] at hs
    split at hs
    case h_1 => cases hs
    case h_2 | h_9 | h_10 =>
      obtain ⟨m, hm, rfl⟩ := Option.map_eq_some_iff.1 hs
      exact ⟨⟨_, rfl⟩, .node hm rfl rfl⟩
    case h_3 =>
      obtain ⟨m, hm, rfl⟩ := Option.map_eq_some_iff.1 hs
      split
      · exact ⟨⟨_, rfl⟩, .nothing⟩
      · exact ⟨⟨_, rfl⟩, .node hm rfl rfl⟩
    case h_4 | h_5 | h_7 =>
      split at hs <;> obtain rfl := Option.some.inj hs <;> exact ⟨⟨_, rfl⟩, .nothing⟩
    case h_6 | h_8 =>
      obtain ⟨m, -, rfl⟩ := Option.map_eq_some_iff.1 hs
      exact ⟨⟨_, rfl⟩, .nothing⟩
    case h_11 =>
      obtain ⟨m, -, rfl⟩ := Option.map_eq_some_iff.1 hs
      exact ⟨⟨_, rfl⟩, .delete⟩
    case h_12 =>
      obtain rfl := Option.some.inj hs
      exact ⟨⟨_, rfl⟩, .nothing⟩

omit [Fintype ι] in
/-- A step writes one thread's locals. -/
theorem step_others (hs : step s a = some s') {u : ι} (hu : u ≠ a.thread) : s'.loc u = s.loc u := by
  obtain ⟨⟨x, hx⟩, -⟩ := step_writes hs
  rw [hx, update_of_ne hu]

omit [Fintype ι] in
/-- The value of a node does not change. -/
theorem Writes.kept {heap heap' : A → Option (Node A V)} (hw : Writes heap heap') {b : A} {n : Node A V}
    (hn : heap b = some n) : heap' b = none ∨ ∃ n', heap' b = some n' ∧ n'.id = n.id ∧ n'.value = n.value := by
  cases hw with
  | nothing => exact .inr ⟨n, hn, rfl, rfl⟩
  | @node p m m' hm hid hval =>
    by_cases hb : b = p
    · subst hb
      obtain rfl : m = n := Option.some.inj (hm.symm.trans hn)
      exact .inr ⟨m', update_self .., hid, hval⟩
    · exact .inr ⟨n, by rw [update_of_ne hb, hn], rfl, rfl⟩
  | @new p m hp =>
    refine .inr ⟨n, ?_, rfl, rfl⟩
    rw [update_of_ne, hn]
    rintro rfl
    rw [hp] at hn
    cases hn
  | @delete p =>
    by_cases hb : b = p
    · exact .inl (by rw [hb, update_self])
    · exact .inr ⟨n, by rw [update_of_ne hb, hn], rfl, rfl⟩

/-- The node of a thread that has not taken the step is as it was. -/
theorem Inv.node_later {L' : List (A × Nat)} (hi' : Inv s' L') (hs : step s a = some s') {u : ι} (hu : u ≠ a.thread)
    {b : A} {id : Option Nat} (hb : (s.loc u).means = some (b, id)) {n : Node A V} (hn : s.heap b = some n) :
    ∃ n', s'.heap b = some n' ∧ n'.id = n.id ∧ n'.value = n.value := by
  rw [← step_others hs hu] at hb
  obtain ⟨m, hm, -⟩ := (hi'.loc u).means b id hb
  refine ((step_writes hs).2.kept hn).resolve_left ?_
  rw [hm]
  nofun

omit [Fintype ι] [DecidableEq A] in
theorem begins_thread {u : ι} (hu : u ≠ a.thread) : begins u a = false := by
  cases a with
  | go t sp => rfl
  | push t v a => exact decide_eq_false (Ne.symm hu)
  | pop t => exact decide_eq_false (Ne.symm hu)

omit [Fintype ι] [DecidableEq ι] in
theorem event_thread {u : ι} {e : Lifo.Event (Nat × V)} (he : event s a = some (u, e)) : u = a.thread := by
  unfold event at he
  split at he
  · split at he
    · split at he
      · split at he <;> cases he
        rfl
      · cases he
    · split at he <;> cases he
      rfl
    · split at he
      · obtain ⟨n, -, he⟩ := Option.map_eq_some_iff.1 he
        cases he
        rfl
      · cases he
    · cases he
  · cases he

/-- A step of another thread. -/
theorem CallOk.later {L' : List (A × Nat)} (hi' : Inv s' L') (hs : step s a = some s') {u : ι} (hu : u ≠ a.thread)
    (hc : CallOk u h s (s.loc u)) : CallOk u ((a, s) :: h) s' (s'.loc u) := by
  have hb : calls.begins u a = false := begins_thread hu
  have hl : calls.last u ((a, s) :: h) = calls.last u h := Calls.last_later hb
  have he : calls.events u ((a, s) :: h) = calls.events u h :=
    Calls.events_later hb fun e heq => hu (event_thread heq)
  have hnode := fun b id (hb : (s.loc u).means = some (b, id)) n => hi'.node_later hs hu hb (n := n)
  rw [step_others hs hu]
  match hloc : s.loc u, hc with
  | .idle, hc =>
    intro v b hlast
    rw [hl] at hlast
    rw [he]
    exact hc v b hlast
  | .pushLoad b id, ⟨⟨n, hn, h1⟩, h2⟩ | .pushCas b id, ⟨⟨n, hn, h1⟩, h2⟩ =>
    obtain ⟨n', hn', -, hv⟩ := hnode b id (by rw [hloc]; rfl) n hn
    exact ⟨⟨n', hn', by rw [hl, hv, h1]⟩, he.trans h2⟩
  | .popMove p k id, ⟨h1, n, hn, h2⟩ =>
    obtain ⟨n', hn', hid, hv⟩ := hnode p id (by rw [hloc]; rfl) n hn
    exact ⟨hl.trans h1, n', hn', by rw [he, hid, hv, h2]⟩
  | .popLoad, ⟨h1, h2⟩ | .popInc _ _, ⟨h1, h2⟩ | .popNext _ _ _, ⟨h1, h2⟩ | .popUnlink _ _ _ _, ⟨h1, h2⟩
  | .popSub _ _, ⟨h1, h2⟩ | .delete _ _ none, ⟨h1, h2⟩ | .popDone none, ⟨h1, h2⟩ =>
    exact ⟨hl.trans h1, he.trans h2⟩
  | .popAdd _ _ _ v, ⟨h1, n, h2⟩ | .delete _ _ (some v), ⟨h1, n, h2⟩ | .popDone (some v), ⟨h1, n, h2⟩ =>
    exact ⟨hl.trans h1, n, he.trans h2⟩

/-- The step of the thread itself. -/
theorem CallOk.go {sp : Bool} (hi : Inv s L) (hc : CallOk t h s (s.loc t)) (hs : go s t sp = some s') :
    CallOk t ((.go t sp, s) :: h) s' (s'.loc t) := by
  have hb : calls.begins t (.go t sp : Act ι A V) = false := rfl
  have hl : calls.last t ((.go t sp, s) :: h) = calls.last t h := Calls.last_later hb
  have hsome : ∀ e, event s (.go t sp) = some (t, e) →
      calls.events t ((.go t sp, s) :: h) = e :: calls.events t h := fun e he => Calls.events_some hb he
  have hnone : event s (.go t sp) = none → calls.events t ((.go t sp, s) :: h) = calls.events t h :=
    fun he => Calls.events_later hb fun e heq => by cases he.symm.trans heq
  have hself : ∀ (r : State ι A V) (x : Local A V), (r.setLoc t x).loc t = x := fun r x => update_self ..
  have hmeans := (hi.loc t).means
  simp only [event] at hsome hnone
  unfold Stack.go at hs
  cases hloc : s.loc t with
  | idle => rw [hloc] at hs; cases hs
  | pushLoad a id =>
    rw [hloc] at hs hc hnone
    obtain ⟨⟨n, hn, h1⟩, h2⟩ := hc
    simp only [hn, Option.map_some, Option.some.injEq] at hs
    subst hs
    rw [hself]
    exact ⟨⟨_, update_self .., hl.trans h1⟩, (hnone rfl).trans h2⟩
  | pushCas a id =>
    rw [hloc] at hs hc hnone hsome
    obtain ⟨⟨n, hn, h1⟩, h2⟩ := hc
    simp only [hn, Option.map_some, Option.some.injEq] at hs hnone hsome
    subst hs
    by_cases hcas : sp = false ∧ s.head = n.next.packed
    · rw [if_pos hcas, hself]
      intro v b hlast
      rw [hl, h1] at hlast
      obtain rfl : n.value = v := by injection hlast with hlast; injection hlast
      exact ⟨n.id, by rw [hsome _ (if_pos hcas), h2]⟩
    · rw [if_neg hcas, hself]
      exact ⟨⟨_, update_self .., hl.trans h1⟩, (hnone (if_neg hcas)).trans h2⟩
  | popLoad =>
    rw [hloc] at hs hc hnone hsome
    obtain ⟨h1, h2⟩ := hc
    cases hp : s.head.raw with
    | none =>
      simp only [hp] at hs hsome
      obtain rfl := Option.some.inj hs
      rw [hself]
      exact ⟨hl.trans h1, by rw [hsome _ (if_pos trivial), h2]⟩
    | some p =>
      simp only [hp] at hs hnone
      obtain rfl := Option.some.inj hs
      rw [hself]
      exact ⟨hl.trans h1, (hnone rfl).trans h2⟩
  | popInc p k =>
    rw [hloc] at hs hc hnone
    obtain ⟨h1, h2⟩ := hc
    simp only at hs hnone
    split at hs <;> obtain rfl := Option.some.inj hs <;> rw [hself] <;>
      exact ⟨hl.trans h1, (hnone trivial).trans h2⟩
  | popNext p k id =>
    rw [hloc] at hs hc hnone
    obtain ⟨h1, h2⟩ := hc
    obtain ⟨n, -, rfl⟩ := Option.map_eq_some_iff.1 hs
    rw [hself]
    exact ⟨hl.trans h1, (hnone rfl).trans h2⟩
  | popUnlink p k nx id =>
    obtain ⟨n, hn, -⟩ := hmeans p id (by rw [hloc]; rfl)
    rw [hloc] at hs hc hnone hsome
    obtain ⟨h1, h2⟩ := hc
    simp only [hn, Option.map_some] at hs hnone hsome
    by_cases hcas : sp = false ∧ s.head = (StampedPtr.mk (some p) k).packed
    · rw [if_pos hcas] at hs
      obtain rfl := Option.some.inj hs
      rw [hself]
      exact ⟨hl.trans h1, n, hn, by rw [hsome _ (if_pos hcas), h2]⟩
    · rw [if_neg hcas] at hs
      obtain rfl := Option.some.inj hs
      rw [hself]
      exact ⟨hl.trans h1, (hnone (if_neg hcas)).trans h2⟩
  | popMove p k id =>
    rw [hloc] at hs hc hnone
    obtain ⟨h1, n, hn, h2⟩ := hc
    simp only [hn, Option.map_some, Option.some.injEq] at hs
    subst hs
    rw [hself]
    exact ⟨hl.trans h1, n.id, (hnone rfl).trans h2⟩
  | popAdd p k id v =>
    rw [hloc] at hs hc hnone
    obtain ⟨h1, i, h2⟩ := hc
    obtain ⟨n, -, rfl⟩ := Option.map_eq_some_iff.1 hs
    rw [hself]
    split <;> exact ⟨hl.trans h1, i, (hnone rfl).trans h2⟩
  | popSub p id =>
    rw [hloc] at hs hc hnone
    obtain ⟨h1, h2⟩ := hc
    obtain ⟨n, -, rfl⟩ := Option.map_eq_some_iff.1 hs
    rw [hself]
    split <;> exact ⟨hl.trans h1, (hnone rfl).trans h2⟩
  | delete p id r =>
    rw [hloc] at hs hc hnone
    obtain ⟨n, -, rfl⟩ := Option.map_eq_some_iff.1 hs
    rw [hself]
    cases r with
    | none =>
      obtain ⟨h1, h2⟩ := hc
      exact ⟨hl.trans h1, (hnone rfl).trans h2⟩
    | some v =>
      obtain ⟨h1, i, h2⟩ := hc
      exact ⟨hl.trans h1, i, (hnone rfl).trans h2⟩
  | popDone r =>
    rw [hloc] at hs hc
    have hpop : calls.last t h = some (.pop t) := by
      cases r with
      | none => exact hc.1
      | some v => exact hc.1
    obtain rfl := Option.some.inj hs
    rw [hself]
    intro v b hlast
    rw [hl, hpop] at hlast
    injection hlast with hlast
    cases hlast

/-- After any step the calls of all threads have done what they should. -/
theorem CallOk.step {L' : List (A × Nat)} (hi : Inv s L) (hi' : Inv s' L') (hs : step s a = some s')
    (hc : ∀ u, CallOk u h s (s.loc u)) (u : ι) : CallOk u ((a, s) :: h) s' (s'.loc u) := by
  by_cases hu : u = a.thread
  · cases a with
    | go t sp =>
      obtain rfl : u = t := hu
      exact CallOk.go hi (hc u) hs
    | push t v b =>
      obtain rfl : u = t := hu
      have hb : calls.begins u (.push u v b : Act ι A V) = true := decide_eq_true rfl
      simp only [Stack.step] at hs
      split at hs
      · obtain rfl := Option.some.inj hs
        rw [setLoc_loc, update_self]
        exact ⟨⟨_, update_self .., Calls.last_begins hb⟩, Calls.events_begins hb⟩
      · cases hs
    | pop t =>
      obtain rfl : u = t := hu
      have hb : calls.begins u (.pop u : Act ι A V) = true := decide_eq_true rfl
      simp only [Stack.step] at hs
      split at hs
      · obtain rfl := Option.some.inj hs
        rw [setLoc_loc, update_self]
        exact ⟨Calls.last_begins hb, Calls.events_begins hb⟩
      · cases hs
  · exact (hc u).later hi' hs hu

/-! ## What is popped -/

/-- A node leaves the stack once. -/
theorem Inv.popped_step (hi : Inv s L) (hs : step s a = some s') :
    s'.popped = s.popped ∧ Lifo.popped ((event s a).map Prod.snd).toList = [] ∨
    ∃ n v, event s a = some (a.thread, .pop (n, v)) ∧ s'.popped = some n :: s.popped ∧ some n ∉ s.popped := by
  cases a with
  | push t v a =>
    simp only [step] at hs
    split at hs
    · obtain rfl := Option.some.inj hs
      exact .inl ⟨rfl, rfl⟩
    · cases hs
  | pop t =>
    simp only [step] at hs
    split at hs
    · obtain rfl := Option.some.inj hs
      exact .inl ⟨rfl, rfl⟩
    · cases hs
  | go t sp =>
    have hloc := hi.loc t
    simp only [step, go] at hs
    simp only [event, Act.thread]
    cases hl : s.loc t <;> rw [hl] at hs hloc <;> simp only at hs ⊢
    case idle => cases hs
    case popLoad => split at hs <;> obtain rfl := Option.some.inj hs <;> exact .inl ⟨rfl, by split <;> rfl⟩
    case popInc => split at hs <;> obtain rfl := Option.some.inj hs <;> exact .inl ⟨rfl, rfl⟩
    case popDone =>
      obtain rfl := Option.some.inj hs
      exact .inl ⟨rfl, rfl⟩
    case pushCas a id =>
      obtain ⟨n, hn, rfl⟩ := Option.map_eq_some_iff.1 hs
      rw [hn]
      left
      by_cases hc : sp = false ∧ s.head = n.next.packed
      · simp only [if_pos hc]
        exact ⟨rfl, rfl⟩
      · simp only [if_neg hc]
        exact ⟨rfl, rfl⟩
    case popUnlink p k nx id =>
      by_cases hc : sp = false ∧ s.head = (StampedPtr.mk (some p) k).packed
      · obtain ⟨n, hn, rfl⟩ := hloc.means p id rfl
        rw [if_pos hc, Option.some.injEq] at hs
        subst hs
        rw [if_pos hc, hn]
        refine .inr ⟨n.id, n.value, rfl, rfl, fun hm => ?_⟩
        -- the node is in the chain, and what was popped is not
        obtain ⟨i, hi', -, hbusy⟩ := hi.ids.popped _ hm
        have hzero := hbusy p (by rw [State.idAt, hn, ← hi']; rfl)
        have hhead := hi.head
        rw [hc.2, packed_of_le hloc.stamp] at hhead
        obtain ⟨l, rfl⟩ := wordOf_eq_some hhead.symm
        simp [busy, linkedAt] at hzero
      · rw [if_neg hc, Option.some.injEq] at hs
        subst hs
        rw [if_neg hc]
        exact .inl ⟨rfl, rfl⟩
    all_goals
      obtain ⟨n, -, rfl⟩ := Option.map_eq_some_iff.1 hs
      exact .inl ⟨rfl, rfl⟩

/-- The state of a run and its history. -/
structure Told (h : History (State ι A V) (Act ι A V)) (s : State ι A V) : Prop where
  inv : ∃ L, Inv s L
  popped : s.popped = (Lifo.popped (calls.all h)).map fun x => some x.1
  nodup : s.popped.Nodup
  calls : ∀ t, CallOk t h s (s.loc t)

theorem told_init : Told [] (init : State ι A V) where
  inv := ⟨[], inv_init⟩
  popped := rfl
  nodup := List.nodup_nil
  calls _ _ _ hlast := nomatch hlast

theorem Told.step (ht : Told h s) (hok : StampFits s a) (hs : step s a = some s') : Told ((a, s) :: h) s' := by
  obtain ⟨L, hi⟩ := ht.inv
  obtain ⟨L', hi'⟩ := inv_step hi hok hs
  have hall : Lifo.popped (Stack.calls.all ((a, s) :: h)) =
      Lifo.popped ((event s a).map Prod.snd).toList ++ Lifo.popped (Stack.calls.all h) := by
    cases he : event s a with
    | none => rw [Calls.all_none he]; rfl
    | some e => rw [Calls.all_some he]; exact List.filterMap_append (l := [e.2])
  refine ⟨⟨L', hi'⟩, ?_, ?_, CallOk.step hi hi' hs ht.calls⟩
  · rcases hi.popped_step hs with ⟨h1, h2⟩ | ⟨n, v, h1, h2, -⟩
    · rw [h1, hall, h2, ht.popped]; rfl
    · rw [h2, hall, h1, ht.popped]; rfl
  · rcases hi.popped_step hs with ⟨h1, -⟩ | ⟨n, v, -, h2, h3⟩
    · rw [h1]; exact ht.nodup
    · rw [h2]; exact List.nodup_cons.2 ⟨h3, ht.nodup⟩

end steps

/-! ## The stack -/

section main

variable [DecidableEq ι]

/-- The stack after a run: every step does to the contents what its event says, so the run is a run of a LIFO stack;
`Push` has returned only after its event, which pushed its value; `TryPop` returns the value that its event has
popped, or `nullopt` after an event that found the stack empty. What was pushed is what was popped and what is there,
every node once. -/
structure Correct (h : History (State ι A V) (Act ι A V)) (s : State ι A V) : Prop where
  lifo : ∀ a s', StampFits s a → step s a = some s' → Applies Lifo.spec (event s a) s.contents s'.contents
  path : Path Lifo.spec [] (calls.all h) s.contents
  pushes : ∀ t v a, s.loc t = .idle → calls.last t h = some (.push t v a) →
    ∃ n, calls.events t h = [.push (n, v)]
  pops : ∀ t v, s.loc t = .popDone (some v) →
    calls.last t h = some (.pop t) ∧ ∃ n, calls.events t h = [.pop (n, v)]
  nullopt : ∀ t, s.loc t = .popDone none → calls.last t h = some (.pop t) ∧ calls.events t h = [.empty]
  balance : (Lifo.pushed (calls.all h)).Perm (Lifo.popped (calls.all h) ++ s.contents)
  distinct : ((Lifo.pushed (calls.all h)).map Prod.fst).Nodup

/-- In every run in which no stamp passes 65535. -/
theorem stack_refines_lifo [Fintype ι] {h : History (State ι A V) (Act ι A V)} {s : State ι A V}
    (r : Run (system ι A V) StampFits h s) : Correct h s := by
  have hrun : ∀ {h : History (State ι A V) (Act ι A V)} {s : State ι A V},
      Run (system ι A V) StampFits h s → Told h s := fun r =>
    r.invariant (fun _ hs => hs ▸ told_init) fun _ _ _ _ ht hok hs => ht.step hok hs
  have hpath : Path Lifo.spec [] (calls.all h) s.contents :=
    calls.refines State.contents (fun _ hs => hs ▸ rfl) (fun _ _ _ _ r _ hs =>
      (hrun r).inv.elim fun _ hi => lifo_step hi hs) r
  have ht := hrun r
  obtain ⟨L, hi⟩ := ht.inv
  refine ⟨fun a s' _ hs => lifo_step hi hs, hpath, fun t v a hl => ?_, fun t v hl => ?_, fun t hl => ?_,
    Lifo.perm hpath, ?_⟩
  · have hc := ht.calls t
    rw [hl] at hc
    exact hc v a
  · have hc := ht.calls t
    rwa [hl] at hc
  · have hc := ht.calls t
    rwa [hl] at hc
  · obtain ⟨hnodup, hmem⟩ := hi.listed_ids
    rw [((Lifo.perm hpath).map Prod.fst).nodup_iff, List.map_append, hi.contents_eq]
    have hsome : ((Lifo.popped (calls.all h)).map Prod.fst).map some = s.popped := by
      rw [List.map_map, ht.popped]
      rfl
    refine List.nodup_append.2 ⟨?_, hnodup, ?_⟩
    · refine List.Nodup.of_map some ?_
      rw [hsome]
      exact ht.nodup
    · rintro i hpop j hlist rfl
      -- what was popped is not in the chain
      obtain ⟨b, hb, hid⟩ := hmem i hlist
      have hm : some i ∈ s.popped := by
        rw [← hsome]
        exact List.mem_map_of_mem hpop
      obtain ⟨k, hk, -, hbusy⟩ := hi.ids.popped _ hm
      obtain rfl : i = k := Option.some.inj hk
      have hzero := hbusy b hid
      have hpos := linkedAt_pos.2 hb
      simp only [busy, counts_linked] at hzero
      omega

/-- Thread 1 loads the head word and stalls; thread 0 pops that node, deletes it and pushes another one on the same
address; thread 1 goes on with the old word, which is the head word again, and pops the new node. -/
def popsReusedAddress : List (Act (Fin 2) (Fin 2) Nat) :=
  [Act.push 0 5 0, Act.go 0 false, Act.go 0 false, Act.pop 1, Act.go 1 false, Act.pop 0]
    ++ List.replicate 8 (Act.go 0 false) ++ [Act.push 0 6 0, Act.go 0 false, Act.go 0 true, Act.go 0 false] ++ List.replicate 6 (Act.go 1 false)

theorem stack_refines_lifo_reused : ∃ h, ∃ s : State (Fin 2) (Fin 2) Nat,
    Run (system (Fin 2) (Fin 2) Nat) StampFits h s ∧ s.popped = [some 1, some 0] ∧ Correct h s := by
  obtain ⟨s, ⟨h, r⟩, hp⟩ := Reach.of_exec (system (Fin 2) (Fin 2) Nat) popsReusedAddress
    (fun s => decide (s.popped = [some 1, some 0])) stampFits_of_check rfl (by decide)
  exact ⟨h, s, r, of_decide_eq_true hp, stack_refines_lifo r⟩

end main

end Stack
