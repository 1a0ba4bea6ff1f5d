import ConcurrencyCourse.Hazard.Account

/-!
# What the guards keep (mutator.cpp 31-132)

`Retire` deletes what `guarded_global` does not have, although that has room for one thread: the next `Protect` of
any thread overwrites it, and `Retire` takes a node out of it that somebody else protects. `guarded_local` has the
guards of every thread, and nobody asks it. `Collect` asks neither; and it clears the mutators of all threads in
the thread that calls it, after it has deleted.

While the two agree where they matter (`KeepsGuards`), a protected node is not deleted and none is deleted twice
(`protects_nodes`).
-/

namespace Hazard

open Transition Function

variable {ι A : Type}

/-! ### What is protected -/

section protects

variable [DecidableEq ι] [DecidableEq A]

/-- What thread `i` protects after a step, when it was `g` before. -/
def protectsNext (i : ι) (a : Act ι A) (s : State ι A) (g : Option (Ptr A)) : Option (Ptr A) :=
  match a with
  | .step j _ =>
    if j = i then
      match s.pc i with
      -- protects something else in the slot
      | .setGlobal t => g.filter fun p => p.addr = t.addr
      | .reload t => if sameAddr s.top t then s.top else g
      | .removeLocal _ => none
      | _ => g
    else g
  | .collect j => if j = i then none else g
  | _ => g

/-- The node that the last `Protect` of thread `i` has returned, until the thread protects something else, retires
it or clears its mutator. -/
def protects (i : ι) : History (State ι A) (Act ι A) → Option (Ptr A)
  | [] => none
  | (a, s) :: h => protectsNext i a s (protects i h)

end protects

/-- What is asked of a step. The test in `Retire` finds a node unguarded only when no other thread guards it;
`Collect` is called when no other thread guards a retired node, and in a thread that guards nothing itself if there
are mutators to be destroyed. -/
def KeepsGuards [DecidableEq ι] [DecidableEq A] [Fintype ι] (s : State ι A) : Act ι A → Prop
  | .step i _ => ∀ it k size q, s.pc i = .scan it k size → k < size / 2 → (s.retired i)[it]? = some q →
      sameAddr s.guardedGlobal q = false → s.isGuardedByThread q i = false
  | .collect i => (∀ j, ∀ q ∈ s.retired j, s.isGuardedByThread q i = false) ∧
      ((∃ j, s.mutators j = true) → s.guardedLocal i = none)
  | _ => True

/-! ### What the guards are worth -/

/-- The node that `Push` has not linked yet. -/
def Pc.fresh : Pc A → Option (Ptr A)
  | .pushLoad p | .pushCas p => some p
  | _ => none

/-- The node that `Protect` has returned, until the CAS. -/
def Pc.held : Pc A → Option (Ptr A)
  | .popNext p | .popCas p _ => some p
  | _ => none

/-- In `Retire`, after `RemoveFromGuardedLocal`. -/
def Pc.retiring : Pc A → Bool
  | .testGlobal _ | .clearGlobal _ | .pushRetired _ | .scan .. | .delete .. => true
  | _ => false

section guards

variable [DecidableEq A]

/-- What a thread knows that protects `g`, with its entry `gl` of `guarded_local`. -/
structure Guards (heap : A → Option (Node A)) (pc : Pc A) (gl g : Option (Ptr A)) : Prop where
  held : ∀ p, pc.held = some p → g = some p
  next : ∀ p next, pc = .popCas p next → ∀ n, heap p.addr = some n → n.next = next
  valid : ∀ p, g = some p → Valid heap p
  guarded : ∀ p, g = some p → sameAddr gl p = true
  setting : ∀ t p, pc = .setLocal t → g = some p → p.addr = t.addr
  reloading : ∀ t, pc = .reload t → gl = some t
  retiring : pc.retiring = true → g = none

variable {heap heap' : A → Option (Node A)} {pc x : Pc A} {gl gl' g : Option (Ptr A)}

theorem Guards.elsewhere (hg : Guards heap pc gl g) (h : ∀ p, g = some p → heap' p.addr = heap p.addr) :
    Guards heap' pc gl g where
  held := hg.held
  next p next hp n hn := by
    subst hp
    rw [h p (hg.held p rfl)] at hn
    exact hg.next p next rfl n hn
  valid p hp := by
    obtain ⟨n, hn, hid⟩ := hg.valid p hp
    exact ⟨n, (h p hp).trans hn, hid⟩
  guarded := hg.guarded
  setting := hg.setting
  reloading := hg.reloading
  retiring := hg.retiring

/-- Places where the thread relies on no more than its guard. -/
def Pc.plain : Pc A → Bool
  | .idle | .pushLoad _ | .pushCas _ | .makeMutator | .load | .setGlobal _ | .removeLocal _ => true
  | _ => false

theorem Guards.plain (hg : Guards heap pc gl g) (hx : x.plain = true) : Guards heap x gl g where
  held p hp := by cases x <;> first | (cases hx; done) | cases hp
  next p next hp := by subst hp; cases hx
  valid := hg.valid
  guarded := hg.guarded
  setting t p hp := by subst hp; cases hx
  reloading t hp := by subst hp; cases hx
  retiring hr := by cases x <;> first | (cases hx; done) | cases hr

/-- A thread that protects nothing. -/
theorem Guards.none (hx : x.held = none) (hr : ∀ t, x ≠ .reload t) : Guards heap x gl none where
  held p hp := by cases hx.symm.trans hp
  next p next hp := by subst hp; cases hx
  valid _ := nofun
  guarded _ := nofun
  setting _ _ _ := nofun
  reloading t hp := absurd hp (hr t)
  retiring _ := rfl

variable [DecidableEq ι] [Fintype ι] {s s' : State ι A} {l : List (Ptr A)}

structure Guarded (g : ι → Option (Ptr A)) (s : State ι A) : Prop where
  own : ∀ i, Guards s.heap (s.pc i) (s.guardedLocal i) (g i)
  fresh : ∀ i p, g i = some p → ∀ j, (s.pc j).fresh ≠ some p
  /-- The node that is about to be deleted is not protected. -/
  deleting : ∀ i it k size q, s.pc i = .delete it k size → (s.retired i)[it]? = some q →
    ∀ j p, g j = some p → p.id ≠ q.id

/-- A step of thread `i`: what it may protect after it, and what it may do to the nodes. -/
structure Steps (g g' : ι → Option (Ptr A)) (s s' : State ι A) (l : List (Ptr A)) (i : ι) (x : Pc A) : Prop where
  pc : s'.pc = update s.pc i x
  locals : ∀ j, j ≠ i → s'.guardedLocal j = s.guardedLocal j
  others : ∀ j, j ≠ i → g' j = g j
  retired : ∀ j, j ≠ i → s'.retired j = s.retired j
  heap : ∀ j p, j ≠ i → g j = some p → s'.heap p.addr = s.heap p.addr
  own : Guards s'.heap x (s'.guardedLocal i) (g' i)
  gains : ∀ p, g' i = some p → g i = some p ∨ p ∈ l
  fresh : ∀ p, x.fresh = some p → (s.pc i).fresh = some p ∨ ∀ j, g' j ≠ some p
  deleting : ∀ it k size q, x = .delete it k size → (s'.retired i)[it]? = some q →
    ∀ j p, g' j = some p → p.id ≠ q.id

omit [DecidableEq A] in
theorem Pc.hand_of_fresh {p : Ptr A} (h : x.fresh = some p) : x.hand = some p := by
  cases x <;> first | exact h | cases h

theorem Guarded.steps {g g' : ι → Option (Ptr A)} (hg : Guarded g s) (hi : Account s l) {i : ι}
    (h : Steps g g' s s' l i x) : Guarded g' s' := by
  have hgains : ∀ j p, g' j = some p → g j = some p ∨ p ∈ l := by
    intro j p hp
    rcases eq_or_ne j i with rfl | hne
    · exact h.gains p hp
    · exact .inl ((h.others j hne).symm.trans hp)
  have hnofresh : ∀ j p, g' j = some p → ∀ k, (s.pc k).fresh ≠ some p := by
    intro j p hp k hk
    rcases hgains j p hp with hgj | hl
    · exact hg.fresh j p hgj k hk
    · exact hi.hand_not_linked (Pc.hand_of_fresh hk) hl rfl
  constructor
  · intro j
    rw [h.pc]
    rcases eq_or_ne j i with rfl | hne
    · rw [update_self]
      exact h.own
    · rw [update_of_ne hne, h.locals j hne, h.others j hne]
      exact (hg.own j).elsewhere fun p => h.heap j p hne
  · intro j p hp k hk
    rw [h.pc] at hk
    rcases eq_or_ne k i with rfl | hne
    · rw [update_self] at hk
      rcases h.fresh p hk with hold | hno
      · exact hnofresh j p hp k hold
      · exact hno j hp
    · rw [update_of_ne hne] at hk
      exact hnofresh j p hp k hk
  · intro k it n size q hk hq j p hp
    rw [h.pc] at hk
    rcases eq_or_ne k i with rfl | hne
    · rw [update_self] at hk
      exact h.deleting it n size q hk hq j p hp
    · rw [update_of_ne hne] at hk
      rw [h.retired k hne] at hq
      rcases hgains j p hp with hgj | hl
      · exact hg.deleting k it n size q hk hq j p hgj
      · exact hi.linked_not_retired hl (List.mem_of_getElem? hq)

variable {g g' : ι → Option (Ptr A)} {i : ι} {sp : Bool}

/-- The thread goes to a place where it relies on its guard alone. -/
theorem Guarded.plain (hg : Guarded g s) (hi : Account s l) (hpc : s'.pc = update s.pc i x)
    (hgl : s'.guardedLocal = s.guardedLocal) (hret : s'.retired = s.retired)
    (hheap : ∀ j p, g j = some p → s'.heap p.addr = s.heap p.addr) (hx : x.plain = true)
    (hfresh : ∀ p, x.fresh = some p → (s.pc i).fresh = some p ∨ ∀ j, g j ≠ some p) : Guarded g s' :=
  hg.steps hi
    { pc := hpc
      locals := fun j _ => congrFun hgl j
      others := fun _ _ => rfl
      retired := fun j _ => congrFun hret j
      heap := fun j p _ => hheap j p
      own := by
        rw [congrFun hgl i]
        exact ((hg.own i).elsewhere (hheap i)).plain hx
      gains := fun _ hp => .inl hp
      fresh := hfresh
      deleting := fun _ _ _ _ h => by subst h; cases hx }

/-- The thread goes on with its `Retire`. -/
theorem Guarded.retires (hg : Guarded g s) (hi : Account s l) (hr : (s.pc i).retiring = true)
    (hpc : s'.pc = update s.pc i x) (hgl : s'.guardedLocal = s.guardedLocal)
    (hret : ∀ j, j ≠ i → s'.retired j = s.retired j)
    (hheap : ∀ j p, g j = some p → s'.heap p.addr = s.heap p.addr) (hx : x.held = none ∧ x.fresh = none)
    (hload : ∀ t, x ≠ .reload t)
    (hdel : ∀ it k size q, x = .delete it k size → (s'.retired i)[it]? = some q →
      ∀ j p, g j = some p → p.id ≠ q.id) : Guarded g s' := by
  have hnone := (hg.own i).retiring hr
  refine hg.steps hi
    { pc := hpc
      locals := fun j _ => congrFun hgl j
      others := fun _ _ => rfl
      retired := hret
      heap := fun j p _ => hheap j p
      own := ?_
      gains := fun _ hp => .inl hp
      fresh := fun p hp => absurd (hx.2.symm.trans hp) nofun
      deleting := hdel }
  rw [hnone]
  exact Guards.none hx.1 hload

omit [Fintype ι] in
theorem protectsNext_step {o : Option (Ptr A)} {j : ι} (h : j ≠ i) :
    protectsNext j (.step i sp) s o = o := if_neg h.symm

omit [Fintype ι] in
/-- Only three places of `TryPop` change what is protected. -/
theorem protectsNext_keep {o : Option (Ptr A)} {j : ι} (hset : ∀ t, s.pc i ≠ .setGlobal t)
    (hload : ∀ t, s.pc i = .reload t → sameAddr s.top t = false) (hrem : ∀ p, s.pc i ≠ .removeLocal p) :
    protectsNext j (.step i sp) s o = o := by
  by_cases h : i = j
  · subst h
    simp only [protectsNext, if_true]
    split
    · next t ht => exact absurd ht (hset t)
    · next t ht => rw [if_neg (by rw [hload t ht]; exact Bool.false_ne_true)]
    · next p hp => exact absurd hp (hrem p)
    · rfl
  · exact if_neg h

/-! `RemoveFromGuardedLocal` changes `guarded_local` of its thread only. -/

omit [Fintype ι] in
theorem removeFromLocal_pc {p : Ptr A} : (if sameAddr (s.guardedLocal i) p then s.setLocal i none else s).pc = s.pc := by
  split <;> rfl

omit [Fintype ι] in
theorem removeFromLocal_retired {p : Ptr A} :
    (if sameAddr (s.guardedLocal i) p then s.setLocal i none else s).retired = s.retired := by
  split <;> rfl

omit [Fintype ι] in
theorem removeFromLocal_heap {p : Ptr A} :
    (if sameAddr (s.guardedLocal i) p then s.setLocal i none else s).heap = s.heap := by
  split <;> rfl

omit [Fintype ι] in
theorem removeFromLocal_local {p : Ptr A} {j : ι} (hj : j ≠ i) :
    (if sameAddr (s.guardedLocal i) p then s.setLocal i none else s).guardedLocal j = s.guardedLocal j := by
  split
  · exact update_of_ne hj ..
  · rfl

theorem Account.removeFromLocal (hi : Account s l) (i : ι) (p : Ptr A) :
    Account (if sameAddr (s.guardedLocal i) p then s.setLocal i none else s) l := by
  split
  · exact hi.same rfl rfl rfl (fun _ => rfl) rfl rfl
  · exact hi

omit [Fintype ι] in
/-- The check that `top_` is still the same node protects it. -/
theorem protectsNext_reload {o : Option (Ptr A)} {t p : Ptr A} (hpc : s.pc i = .reload t) (htop : s.top = some p)
    (hsame : p.addr = t.addr) : protectsNext i (.step i sp) s o = some p := by
  have hstill : sameAddr s.top t = true := sameAddr_iff.2 ⟨p, htop, hsame⟩
  simp only [protectsNext, if_true, hpc]
  rw [if_pos hstill, htop]

omit [Fintype ι] in
theorem Move.keeps {y : Pc A} (h : Move s i y x) (hy : s.pc i = y) (j : ι) (o : Option (Ptr A)) :
    protectsNext j (.step i sp) s o = o := by
  apply protectsNext_keep
  · intro t ht
    rw [hy] at ht
    subst ht
    cases h
  · intro t ht
    rw [hy] at ht
    subst ht
    cases h
    assumption
  · intro p hp
    rw [hy] at hp
    subst hp
    cases h

/-- The node that the test has found unguarded is not protected by anybody. -/
theorem Guarded.found (hg : Guarded g s) (hi : Account s l) {it k size : Nat} {q : Ptr A}
    (hp : s.pc i = .scan it k size) (hq : (s.retired i)[it]? = some q) (hno : s.isGuardedByThread q i = false)
    (j : ι) (p : Ptr A) (hj : g j = some p) : p.id ≠ q.id := by
  intro h
  rcases eq_or_ne j i with rfl | hne
  · have hnone := (hg.own j).retiring (by rw [hp]; rfl)
    cases hnone.symm.trans hj
  · have hpq := hi.eq_of_id ((hg.own j).valid p hj) (hi.retired i q (List.mem_of_getElem? hq)) h
    have hguard := (hg.own j).guarded p hj
    rw [hpq] at hguard
    have hyes : s.isGuardedByThread q i = true := decide_eq_true ⟨j, hne, hguard⟩
    cases hno.symm.trans hyes

theorem Guarded.move (hg : Guarded g s) (hi : Account s l) (hok : KeepsGuards s (.step i sp)) {y : Pc A}
    (hy : s.pc i = y) (h : Move s i y x) : Guarded g (s.setPc i x) := by
  cases h with
  | empty top => exact hg.plain hi rfl rfl rfl (fun _ _ _ => rfl) rfl nofun
  | load top => exact hg.plain hi rfl rfl rfl (fun _ _ _ => rfl) rfl nofun
  | again other => exact hg.plain hi rfl rfl rfl (fun _ _ _ => rfl) rfl nofun
  | lost => exact hg.plain hi rfl rfl rfl (fun _ _ _ => rfl) rfl nofun
  | finish => exact hg.plain hi rfl rfl rfl (fun _ _ _ => rfl) rfl nofun
  | @next p n node =>
    have hown := hg.own i
    rw [hy] at hown
    refine hg.steps hi
      { pc := rfl, locals := fun _ _ => rfl, others := fun _ _ => rfl, retired := fun _ _ => rfl
        heap := fun _ _ _ _ => rfl, own := ?_, gains := fun _ hp => .inl hp, fresh := nofun, deleting := nofun }
    refine ⟨hown.held, ?_, hown.valid, hown.guarded, nofun, nofun, nofun⟩
    intro q next hq m hm
    injection hq with hpq hnext
    subst hpq hnext
    have hm : s.heap p.addr = some m := hm
    rw [node] at hm
    rw [Option.some.inj hm]
  | guarded =>
    exact hg.retires hi (by rw [hy]; rfl) rfl rfl (fun _ _ => rfl) (fun _ _ _ => rfl) ⟨rfl, rfl⟩ nofun nofun
  | unguarded =>
    exact hg.retires hi (by rw [hy]; rfl) rfl rfl (fun _ _ => rfl) (fun _ _ _ => rfl) ⟨rfl, rfl⟩ nofun nofun
  | skip =>
    exact hg.retires hi (by rw [hy]; rfl) rfl rfl (fun _ _ => rfl) (fun _ _ _ => rfl) ⟨rfl, rfl⟩ nofun nofun
  | @found it k size q turn at_ unguarded =>
    refine hg.retires hi (by rw [hy]; rfl) rfl rfl (fun _ _ => rfl) (fun _ _ _ => rfl) ⟨rfl, rfl⟩ nofun ?_
    intro it' k' size' q' heq hq' j p hj
    injection heq with hit
    subst hit
    have hq' : (s.retired i)[it]? = some q' := hq'
    obtain rfl := Option.some.inj (at_.symm.trans hq')
    exact hg.found hi hy at_ (hok it k size q hy turn at_ unguarded) j p hj

omit [Fintype ι] in
/-- `Clear` has nothing to retire. -/
theorem collect_eq [Fintype ι] (h : (∃ j, s.mutators j = true) → s.guardedLocal i = none) :
    s.collect i = { s.deleteForAllThreads with mutators := fun _ => false } := by
  have hclear : (if ∃ j, s.deleteForAllThreads.mutators j = true then s.deleteForAllThreads.clear i
      else s.deleteForAllThreads) = s.deleteForAllThreads := by
    split
    · next hm =>
      have hnone : s.deleteForAllThreads.guardedLocal i = none := h hm
      simp only [State.clear, hnone]
    · rfl
  exact congrArg (fun d : State ι A => { d with mutators := fun _ => false }) hclear

/-- `Collect` in a thread that guards nothing, with nothing guarded that is retired. -/
theorem Guarded.collect (hg : Guarded g s) (hi : Account s l) (hidle : ∀ j, s.pc j = .idle)
    (hok : KeepsGuards s (.collect i)) :
    Account (s.collect i) l ∧ Guarded (fun j => protectsNext j (.collect i) s (g j)) (s.collect i) := by
  obtain ⟨hno, hclear⟩ := hok
  rw [collect_eq hclear]
  obtain ⟨hacc, hvalid⟩ := hi.deleteForAllThreads hidle
  refine ⟨hacc.same rfl rfl rfl (fun _ => rfl) rfl rfl, ?_⟩
  have hgj : ∀ j p, protectsNext j (.collect i) s (g j) = some p → g j = some p ∧ j ≠ i := by
    intro j p hp
    rcases eq_or_ne j i with rfl | hne
    · simp only [protectsNext, if_true] at hp
      cases hp
    · exact ⟨(if_neg hne.symm).symm.trans hp, hne⟩
  have hapart : ∀ j p, g j = some p → j ≠ i → ∀ k, ∀ q ∈ s.retired k, q.id ≠ p.id := by
    intro j p hp hne k q hq h
    have hqp := hi.eq_of_id (hi.retired k q hq) ((hg.own j).valid p hp) h
    have hguard := (hg.own j).guarded p hp
    rw [← hqp] at hguard
    have hyes : s.isGuardedByThread q i = true := decide_eq_true ⟨j, hne, hguard⟩
    cases (hno k q hq).symm.trans hyes
  constructor
  · intro j
    have hpc : s.pc j = .idle := hidle j
    change Guards s.deleteForAllThreads.heap (s.pc j) (s.guardedLocal j) _
    rw [hpc]
    constructor
    · exact nofun
    · exact nofun
    · intro p hp
      obtain ⟨hp, hne⟩ := hgj j p hp
      exact hvalid p ((hg.own j).valid p hp) (hapart j p hp hne)
    · intro p hp
      exact (hg.own j).guarded p (hgj j p hp).1
    · exact nofun
    · exact nofun
    · exact nofun
  · intro j p _ k hk
    have hk : (s.pc k).fresh = some p := hk
    rw [hidle k] at hk
    cases hk
  · intro k it n size q hk
    exact absurd ((hidle k).symm.trans hk) nofun

theorem Guarded.step (hg : Guarded g s) (hi : Account s l) {a : Act ι A} (hok : KeepsGuards s a)
    (he : Effect s a s') : ∃ l', Account s' l' ∧ Guarded (fun j => protectsNext j a s (g j)) s' := by
  cases he with
  | @push i a idle free =>
    refine ⟨l, hi.push idle free, hg.plain hi rfl rfl rfl (fun j p hp => ?_) rfl fun p hp => .inr fun j hj => ?_⟩
    · exact update_of_ne (((hg.own j).valid p hp).addr_ne free) ..
    · obtain rfl := Option.some.inj hp
      exact ((hg.own j).valid _ hj).addr_ne free rfl
  | @tryPop i idle =>
    exact ⟨l, hi.setPc idle rfl, hg.plain hi rfl rfl rfl (fun _ _ _ => rfl) rfl nofun⟩
  | @move i sp x move =>
    simp only [move.keeps rfl]
    refine ⟨l, hi.setPc rfl ?_, hg.move hi hok rfl move⟩
    generalize s.pc i = y at move
    cases move <;> rfl
  | @write i sp p n at_ node =>
    have hhand : (s.pc i).hand = some p := by rcases at_ with h | h <;> rw [h] <;> rfl
    have hfresh : (s.pc i).fresh = some p := by rcases at_ with h | h <;> rw [h] <;> rfl
    obtain ⟨hacc, -⟩ := hi.setNode hhand node s.top
    have hkeep : ∀ j o, protectsNext j (.step i sp) s o = o := by
      intro j o
      apply protectsNext_keep <;> rcases at_ with h | h <;> rw [h] <;> nofun
    simp only [hkeep]
    refine ⟨l, hacc.setPc (y := s.pc i) rfl hhand.symm, hg.plain hi rfl rfl rfl (fun j q hq => ?_) rfl
      fun q hq => .inl (hfresh.trans hq)⟩
    refine update_of_ne (fun h => ?_) ..
    have hqp := ((hg.own j).valid q hq).eq_of_addr (hi.hands i p hhand) h
    exact hg.fresh j q hq i (hqp ▸ hfresh)
  | @publish i sp p n at_ node =>
    have hhand : (s.pc i).hand = some p := by rw [at_]; rfl
    have hfresh : (s.pc i).fresh = some p := by rw [at_]; rfl
    obtain ⟨hacc, -⟩ := hi.setNode hhand node s.top
    have hkeep : ∀ j o, protectsNext j (.step i sp) s o = o := by
      intro j o
      apply protectsNext_keep <;> rw [at_] <;> nofun
    simp only [hkeep]
    refine ⟨p :: l, hacc.publish at_ (update_self ..) rfl, hg.plain hi rfl rfl rfl (fun j q hq => ?_) rfl nofun⟩
    refine update_of_ne (fun h => ?_) ..
    have hqp := ((hg.own j).valid q hq).eq_of_addr (hi.hands i p hhand) h
    exact hg.fresh j q hq i (hqp ▸ hfresh)
  | @makeMutator i sp at_ =>
    have hkeep : ∀ j o, protectsNext j (.step i sp) s o = o := by
      intro j o
      apply protectsNext_keep <;> rw [at_] <;> nofun
    simp only [hkeep]
    have hacc : Account (s.setMutator i) l := hi.same rfl rfl rfl (fun _ => rfl) rfl rfl
    exact ⟨l, hacc.setPc at_ rfl, hg.plain hi rfl rfl rfl (fun _ _ _ => rfl) rfl nofun⟩
  | @setGlobal i sp t at_ =>
    have hacc : Account (s.setGlobal (some t)) l := hi.same rfl rfl rfl (fun _ => rfl) rfl rfl
    refine ⟨l, hacc.setPc at_ rfl, hg.steps hi (i := i) (x := .setLocal t)
      { pc := rfl, locals := fun _ _ => rfl, others := fun j hj => protectsNext_step hj, retired := fun _ _ => rfl
        heap := fun _ _ _ _ => rfl, own := ?_, gains := ?_, fresh := nofun, deleting := nofun }⟩
    · have hself : protectsNext i (.step i sp) s (g i) = (g i).filter fun p => p.addr = t.addr := by
        simp only [protectsNext, if_true, at_]
      rw [hself]
      have hsub : ∀ p, ((g i).filter fun p => p.addr = t.addr) = some p → g i = some p ∧ p.addr = t.addr := by
        intro p hp
        obtain ⟨hp, ht⟩ := Option.filter_eq_some_iff.1 hp
        exact ⟨hp, of_decide_eq_true ht⟩
      constructor
      · exact nofun
      · exact nofun
      · exact fun p hp => (hg.own i).valid p (hsub p hp).1
      · exact fun p hp => (hg.own i).guarded p (hsub p hp).1
      · intro t' p ht hp
        obtain rfl := Pc.setLocal.inj ht
        exact (hsub p hp).2
      · exact nofun
      · exact nofun
    · intro p hp
      simp only [protectsNext, if_true, at_] at hp
      exact .inl (Option.filter_eq_some_iff.1 hp).1
  | @setLocal i sp t at_ =>
    have hkeep : ∀ j o, protectsNext j (.step i sp) s o = o := by
      intro j o
      apply protectsNext_keep <;> rw [at_] <;> nofun
    simp only [hkeep]
    have hacc : Account (s.setLocal i (some t)) l := hi.same rfl rfl rfl (fun _ => rfl) rfl rfl
    refine ⟨l, hacc.setPc at_ rfl, hg.steps hi (i := i) (x := .reload t)
      { pc := rfl, locals := fun j hj => update_of_ne hj .., others := fun _ _ => rfl, retired := fun _ _ => rfl
        heap := fun _ _ _ _ => rfl, own := ?_, gains := fun _ hp => .inl hp, fresh := nofun, deleting := nofun }⟩
    have hlocal : ((s.setLocal i (some t)).setPc i (.reload t)).guardedLocal i = some t := update_self ..
    rw [hlocal]
    constructor
    · exact nofun
    · exact nofun
    · exact (hg.own i).valid
    · exact fun p hp => sameAddr_iff.2 ⟨t, rfl, ((hg.own i).setting t p at_ hp).symm⟩
    · exact nofun
    · intro t' ht
      obtain rfl := Pc.reload.inj ht
      rfl
    · exact nofun
  | @reload i sp t p at_ top same =>
    have hmem : p ∈ l := by
      cases l with
      | nil => cases hi.linked.symm.trans top
      | cons q l' =>
        obtain rfl := Option.some.inj (top.symm.trans hi.linked.1)
        exact .head _
    have hself : protectsNext i (.step i sp) s (g i) = some p := protectsNext_reload at_ top same
    refine ⟨l, hi.setPc at_ rfl, hg.steps hi (i := i) (x := .popNext p)
      { pc := rfl, locals := fun _ _ => rfl, others := fun j hj => protectsNext_step hj, retired := fun _ _ => rfl
        heap := fun _ _ _ _ => rfl, own := ?_, gains := ?_, fresh := nofun, deleting := nofun }⟩
    · rw [hself]
      have hgl : s.guardedLocal i = some t := (hg.own i).reloading t at_
      refine ⟨fun q hq => hq, nofun, fun q hq => ?_, fun q hq => ?_, nofun, nofun, nofun⟩
      · exact Option.some.inj hq ▸ hi.linked.valid p hmem
      · exact sameAddr_iff.2 ⟨t, hgl, by rw [← Option.some.inj hq]; exact same.symm⟩
    · intro q hq
      exact .inr (Option.some.inj (hself.symm.trans hq) ▸ hmem)
  | @unlink i sp p next at_ top =>
    have hkeep : ∀ j o, protectsNext j (.step i sp) s o = o := by
      intro j o
      apply protectsNext_keep <;> rw [at_] <;> nofun
    simp only [hkeep]
    have hheld := (hg.own i).held p (by rw [at_]; rfl)
    obtain ⟨l', -, hacc⟩ := hi.unlink at_ top ((hg.own i).valid p hheld) ((hg.own i).next p next at_)
    exact ⟨l', hacc, hg.plain hi rfl rfl rfl (fun _ _ _ => rfl) rfl nofun⟩
  | @removeLocal i sp p at_ =>
    have hself : protectsNext i (.step i sp) s (g i) = none := by simp only [protectsNext, if_true, at_]
    have hacc := hi.removeFromLocal i p
    refine ⟨l, hacc.setPc ((congrFun removeFromLocal_pc i).trans at_) rfl, hg.steps hi (i := i) (x := .testGlobal p)
      { pc := ?_, locals := ?_, others := fun j hj => protectsNext_step hj, retired := ?_, heap := ?_, own := ?_,
        gains := ?_, fresh := nofun, deleting := nofun }⟩
    · exact congrArg (fun f => update f i (Pc.testGlobal p)) removeFromLocal_pc
    · intro j hj
      exact removeFromLocal_local hj
    · intro j _
      exact congrFun removeFromLocal_retired j
    · intro j q _ _
      exact congrFun removeFromLocal_heap _
    · rw [hself]
      exact Guards.none rfl nofun
    · intro q hq
      cases hself.symm.trans hq
  | @clearGlobal i sp p at_ =>
    have hkeep : ∀ j o, protectsNext j (.step i sp) s o = o := by
      intro j o
      apply protectsNext_keep <;> rw [at_] <;> nofun
    simp only [hkeep]
    have hacc : Account (s.setGlobal none) l := hi.same rfl rfl rfl (fun _ => rfl) rfl rfl
    exact ⟨l, hacc.setPc at_ rfl, hg.retires hi (by rw [at_]; rfl) rfl rfl (fun _ _ => rfl) (fun _ _ _ => rfl)
      ⟨rfl, rfl⟩ nofun nofun⟩
  | @pushRetired i sp p x at_ next =>
    have hkeep : ∀ j o, protectsNext j (.step i sp) s o = o := by
      intro j o
      apply protectsNext_keep <;> rw [at_] <;> nofun
    simp only [hkeep]
    have hnew : ∀ q ∈ s.retired i, q.addr ≠ p.addr :=
      fun q hq => hi.hand_not_retired (i := i) (by rw [at_]; rfl) hq
    rw [pushRetired_new hnew]
    have hx : x.hand = none ∧ x.held = none ∧ x.fresh = none := by
      rcases next with rfl | ⟨size, rfl⟩ <;> exact ⟨rfl, rfl, rfl⟩
    refine ⟨l, hi.pushRetired at_ hx.1, hg.retires hi (by rw [at_]; rfl) rfl rfl (fun j hj => update_of_ne hj ..)
      (fun _ _ _ => rfl) hx.2 ?_ ?_⟩
    · rcases next with rfl | ⟨size, rfl⟩ <;> nofun
    · rcases next with rfl | ⟨size, rfl⟩ <;> nofun
  | @delete i sp it k size q at_ what =>
    have hkeep : ∀ j o, protectsNext j (.step i sp) s o = o := by
      intro j o
      apply protectsNext_keep <;> rw [at_] <;> nofun
    simp only [hkeep]
    obtain ⟨hacc, -⟩ := hi.delete at_ what
    have hvq := hi.retired i q (List.mem_of_getElem? what)
    refine ⟨l, hacc, hg.retires hi (by rw [at_]; rfl) rfl rfl (fun j hj => update_of_ne hj ..) (fun j p hp => ?_)
      ⟨rfl, rfl⟩ nofun nofun⟩
    refine update_of_ne (fun h => ?_) ..
    have hpq := ((hg.own j).valid p hp).eq_of_addr hvq h
    exact hg.deleting i it k size q at_ what j p hp (congrArg Ptr.id hpq)
  | collect idle => exact ⟨l, hg.collect hi idle hok⟩

end guards

/-! ### Hazard pointers -/

section safety

variable [DecidableEq ι] [DecidableEq A] [Fintype ι]

structure Safe (h : History (State ι A) (Act ι A)) (s : State ι A) : Prop where
  /-- What a thread protects has not been deleted. -/
  protected_ : ∀ i p, protects i h = some p → p.id ∉ s.deleted
  once : s.deleted.Nodup

omit [DecidableEq ι] [DecidableEq A] in
theorem account_init : Account (init : State ι A) [] where
  linked := rfl
  places k := by simp [State.places, init, Pc.hand, isNode, ids]
  hands _ _ := nofun
  retired _ _ := nofun
  live _ _ := nofun
  inj _ _ _ _ := nofun

omit [DecidableEq ι] [Fintype ι] in
theorem guarded_init : Guarded (fun _ => none) (init : State ι A) where
  own _ := Guards.none rfl nofun
  fresh _ _ := nofun
  deleting _ _ _ _ _ := nofun

/-- In every run whose tests miss no guard, a protected node is not deleted, and no node is deleted twice. -/
theorem protects_nodes {h : History (State ι A) (Act ι A)} {s : State ι A}
    (r : Run (system ι A) KeepsGuards h s) : Safe h s := by
  have hi : ∃ l, Account s l ∧ Guarded (fun i => protects i h) s := by
    refine r.invariant (I := fun h s => ∃ l, Account s l ∧ Guarded (fun i => protects i h) s) ?_ ?_
    · rintro s rfl
      exact ⟨[], account_init, guarded_init⟩
    · rintro h s a s' ⟨l, hi, hg⟩ hok hs
      exact hg.step hi hok (step_effect hs)
  obtain ⟨l, hi, hg⟩ := hi
  refine ⟨fun i p hp => ?_, hi.once⟩
  obtain ⟨n, hn, hid⟩ := (hg.own i).valid p hp
  rw [← hid]
  exact (hi.live _ n hn).2

/-- The check for runs whose tests miss no guard. -/
def checkKeepsGuards (s : State ι A) : Act ι A → Bool
  | .step i _ => match s.pc i with
    | .scan it k size => match (s.retired i)[it]? with
      | some q => !decide (k < size / 2) || sameAddr s.guardedGlobal q || !s.isGuardedByThread q i
      | none => true
    | _ => true
  | .collect i => decide (∀ j, ∀ q ∈ s.retired j, s.isGuardedByThread q i = false) &&
      (!decide (∃ j, s.mutators j = true) || s.guardedLocal i = none)
  | _ => true

theorem keepsGuards_of_check (s : State ι A) (a : Act ι A) (h : checkKeepsGuards s a = true) :
    KeepsGuards s a := by
  cases a with
  | step i sp =>
    intro it k size q hp hk hq hno
    simpa [checkKeepsGuards, hp, hq, hk, hno] using h
  | collect i =>
    simp only [checkKeepsGuards, Bool.and_eq_true, decide_eq_true_eq, Bool.or_eq_true, Bool.not_eq_true',
      decide_eq_false_iff_not] at h
    exact ⟨h.1, fun hm => h.2.resolve_left (not_not.2 hm)⟩
  | _ => trivial

/-- Two threads race for a node, the second pops another one; both nodes are collected. -/
theorem protects_racing_poppers : ∃ (h : History (State (Fin 2) Nat) (Act (Fin 2) Nat)) (s : State (Fin 2) Nat),
    s.deleted = {0, 1} ∧ Safe h s := by
  obtain ⟨s, ⟨h, r⟩, hp⟩ := Reach.of_exec (system (Fin 2) Nat)
    ([Act.push 0 0, Act.step 0 false, Act.step 0 false, Act.tryPop 1] ++ List.replicate 6 (Act.step 1 false) ++
      [Act.tryPop 0] ++ List.replicate 11 (Act.step 0 false) ++ [Act.push 0 1, Act.step 0 false, Act.step 0 false] ++
      List.replicate 11 (Act.step 1 false) ++ [Act.collect 0])
    (fun s => s.deleted = {0, 1}) keepsGuards_of_check (s := init) rfl (by decide)
  exact ⟨h, s, of_decide_eq_true hp, protects_nodes r⟩

theorem collect_pc {s : State ι A} {i : ι} : (s.collect i).pc = s.pc := by
  have hclear : ∀ d : State ι A, (d.clear i).pc = d.pc := by
    intro d
    unfold State.clear
    split <;> rfl
  unfold State.collect
  change (if ∃ j, s.deleteForAllThreads.mutators j = true then s.deleteForAllThreads.clear i
    else s.deleteForAllThreads).pc = s.pc
  split
  · exact hclear _
  · rfl

/-- In any run, what a thread works on is what it protects. -/
theorem held_of_run {h : History (State ι A) (Act ι A)} {s : State ι A} (r : Run (system ι A) anyStep h s) :
    ∀ i p, (s.pc i).held = some p → protects i h = some p := by
  refine r.invariant (I := fun h s => ∀ i p, (s.pc i).held = some p → protects i h = some p) ?_ ?_
  · rintro s rfl i p hp
    cases hp
  · intro h s a s' hi _ hs i p hp
    -- a thread that moves, to a place where it works on a node: after `reload`, or on the same node as before
    have hmove : ∀ {j : ι} {x : Pc A} {sp : Bool}, s'.pc = update s.pc j x → a = .step j sp →
        (x.held = some p → protectsNext j (.step j sp) s (protects j h) = some p) →
        protectsNext i a s (protects i h) = some p := by
      rintro j x sp hpc rfl hx
      rw [hpc] at hp
      rcases eq_or_ne i j with rfl | hne
      · rw [update_self] at hp
        exact hx hp
      · rw [update_of_ne hne] at hp
        rw [protectsNext_step hne]
        exact hi i p hp
    change protectsNext i a s (protects i h) = some p
    have he := step_effect hs
    cases he with
    | @push j a idle free =>
      have hp : (update s.pc j (.pushLoad ⟨a, s.allocs⟩) i).held = some p := hp
      rcases eq_or_ne i j with rfl | hne
      · rw [update_self] at hp
        cases hp
      · rw [update_of_ne hne] at hp
        exact hi i p hp
    | @tryPop j idle =>
      have hp : (update s.pc j .makeMutator i).held = some p := hp
      rcases eq_or_ne i j with rfl | hne
      · rw [update_self] at hp
        cases hp
      · rw [update_of_ne hne] at hp
        exact hi i p hp
    | @move j sp x move =>
      refine hmove rfl rfl fun hx => ?_
      rw [move.keeps rfl]
      have hij := hi j p
      generalize s.pc j = y at move hij
      cases move with
      | next node => exact hij hx
      | _ => cases hx
    | @reload j sp t q at_ top same =>
      refine hmove rfl rfl fun hx => ?_
      rw [protectsNext_reload at_ top same]
      exact hx
    | @removeLocal j sp q at_ =>
      refine hmove (j := j) (x := .testGlobal q) ?_ rfl (by rintro ⟨⟩)
      change update (if sameAddr (s.guardedLocal j) q then s.setLocal j none else s).pc j (.testGlobal q) = _
      rw [removeFromLocal_pc]
    | @pushRetired j sp q x at_ next =>
      refine hmove rfl rfl fun hx => ?_
      rcases next with rfl | ⟨size, rfl⟩ <;> cases hx
    | @collect j idle =>
      rw [collect_pc, idle i] at hp
      cases hp
    | write at_ node => exact hmove rfl rfl (by rintro ⟨⟩)
    | publish at_ node => exact hmove rfl rfl (by rintro ⟨⟩)
    | makeMutator at_ => exact hmove rfl rfl (by rintro ⟨⟩)
    | setGlobal at_ => exact hmove rfl rfl (by rintro ⟨⟩)
    | setLocal at_ => exact hmove rfl rfl (by rintro ⟨⟩)
    | unlink at_ top => exact hmove rfl rfl (by rintro ⟨⟩)
    | clearGlobal at_ => exact hmove rfl rfl (by rintro ⟨⟩)
    | delete at_ what => exact hmove rfl rfl (by rintro ⟨⟩)

/-- `Push` and `TryPop` in thread 0. -/
def pushPop (a : Nat) : List (Act (Fin 2) Nat) :=
  [Act.push 0 a, Act.step 0 false, Act.step 0 false, Act.tryPop 0] ++ List.replicate 11 (Act.step 0 false)

set_option maxRecDepth 4000 in
/-- Thread 1 protects a node that thread 0 then pops; at its 11th pop thread 0 deletes it, and thread 1 is about to
read it. And: thread 1 loses the race for a node and finds the stack empty. It collects the node that thread 0 has
retired, clears its own guard of it into its list, and deletes it again when it collects the next time. -/
theorem deletes_protected_and_twice :
    (∃ (h : History (State (Fin 2) Nat) (Act (Fin 2) Nat)) (s : State (Fin 2) Nat),
      Run (system (Fin 2) Nat) anyStep h s ∧ ∃ i p, protects i h = some p ∧ p.id ∈ s.deleted) ∧
    ∃ s, Reach (system (Fin 2) Nat) anyStep s ∧ ¬ s.deleted.Nodup := by
  constructor
  · obtain ⟨s, ⟨h, r⟩, hp⟩ := Reach.of_exec_any (system (Fin 2) Nat)
      ([Act.push 0 0, Act.step 0 false, Act.step 0 false, Act.tryPop 1] ++ List.replicate 5 (Act.step 1 false) ++
        [Act.tryPop 0] ++ List.replicate 11 (Act.step 0 false) ++ (List.range' 1 10).flatMap pushPop ++
        List.replicate 2 (Act.step 0 false))
      (fun s => s.pc 1 = .popNext ⟨0, 0⟩ ∧ 0 ∈ s.deleted) (s := init) rfl (by decide)
    obtain ⟨hpc, hdel⟩ := of_decide_eq_true hp
    exact ⟨h, s, r, 1, ⟨0, 0⟩, held_of_run r 1 ⟨0, 0⟩ (by rw [hpc]; rfl), hdel⟩
  · obtain ⟨s, hr, hp⟩ := Reach.of_exec_any (system (Fin 2) Nat)
      ([Act.push 0 0, Act.step 0 false, Act.step 0 false, Act.tryPop 1] ++ List.replicate 6 (Act.step 1 false) ++
        [Act.tryPop 0] ++ List.replicate 11 (Act.step 0 false) ++ List.replicate 2 (Act.step 1 false) ++ [Act.collect 1, Act.collect 1])
      (fun s => ¬ s.deleted.Nodup) (s := init) rfl (by decide)
    exact ⟨s, hr, of_decide_eq_true hp⟩

end safety

end Hazard
