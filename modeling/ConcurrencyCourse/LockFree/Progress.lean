import ConcurrencyCourse.Lib.Progress
import ConcurrencyCourse.LockFree.Fifo

/-!
# `LockFreeQueue` is lock-free (tasks/lockfree/queue/lock_free_queue.hpp)

A `Push` retries when somebody has linked a node behind its `curr_tail`, or when it has to help `tail_` first; a
`TryPop` retries when somebody has moved `head_`.

* `tail_` lags behind the end of the chain, and every successful help brings it one node nearer (`lag`). The last CAS
  of a `Push` compares with an unassigned variable, so it may put `tail_` back by any number of nodes: it does so once
  for each node that was linked (`unfinished`).
* `rank`: how far a thread is from a CAS that cannot fail while `head_`, `tail_` and the chain stay the same.
-/

namespace LockFreeQueue

open MSQueue Transition Threads Function

variable {ι T : Type}

/-- A `Push` links its node, or a `TryPop` moves `head_` or finds nothing behind it. -/
def completes (s : State ι T) : Act ι T → Prop
  | .step i spurious _ => match s.pc i with
    | .push _ (.link _ t) => spurious = false ∧ (s.q.nodes t).next = none
    | .pop (.readNext h) => (s.q.nodes h).next = none
    | .pop (.casHead h _) => spurious = false ∧ s.q.head = some h
    | _ => False
  | _ => False

/-- A weak CAS fails although the values are equal. -/
def fails (s : State ι T) : Act ι T → Prop
  | .step i spurious _ => match s.pc i with
    | .push _ (.help _ _ _) | .push _ (.link _ _) | .pop (.casHead _ _) => spurious = true
    | _ => False
  | _ => False

/-! ### What is left to do -/

/-- The nodes of the chain from `tail_` on. -/
def lag (q : Queue T) : Nat := q.chain.length - q.chain.idxOf (q.tail.getD 0)

/-- Before the CAS that ends a `Push`. -/
def Pc.unfinished : Pc T → Bool
  | .push _ (.swing _) => true
  | _ => false

def putRank (q : Queue T) : PutPc → Nat
  | .loadTail _ => 4
  -- with the current `tail_`, or with an old one
  | .readNext _ t => if q.tail = some t then 3 else 8
  | .readNext2 _ t => if q.tail = some t then 2 else 7
  | .help _ t _ => if q.tail = some t then 1 else 6
  | .link _ t => if (q.nodes t).next = none then 1 else 5
  | .swing _ => 12
  | .bump => 11
  | .done => 10

def popRank (q : Queue T) : PopPc T → Nat
  | .loadHead => 4
  | .readNext h => if q.head = some h then 3 else 7
  | .readNext2 h => if q.head = some h then 2 else 6
  | .casHead h _ => if q.head = some h then 1 else 5
  | .readNext3 _ => 13
  | .moveValue _ _ => 12
  | .subSize _ => 11
  | .empty | .popped _ => 10

/-- How many steps a thread is from a CAS that succeeds, or from the end of its call and the one after it. -/
def rank (q : Queue T) : Pc T → Nat
  | .idle => 9
  | .push _ pc => putRank q pc
  | .pop pc => popRank q pc

/-- What the retries of all threads compare. -/
structure SameLinks (q q' : Queue T) : Prop where
  head : q'.head = q.head
  tail : q'.tail = q.tail
  chain : q'.chain = q.chain
  next : ∀ m ∈ q.chain, (q'.nodes m).next = (q.nodes m).next

section ranks

variable {q q' : Queue T}

theorem SameLinks.refl (q : Queue T) : SameLinks q q := ⟨rfl, rfl, rfl, fun _ _ => rfl⟩

theorem SameLinks.newNode (hi : QInv q) (item : T) : SameLinks q (q.newNode item) := by
  refine ⟨rfl, rfl, rfl, fun m hm => ?_⟩
  have hne : m ≠ q.allocs := Nat.ne_of_lt (hi.lt m hm)
  exact congrArg Node.next (update_of_ne hne ..)

theorem SameLinks.moveOut (q : Queue T) (n : Nat) : SameLinks q (q.moveOut n) := by
  refine ⟨rfl, rfl, rfl, fun m _ => ?_⟩
  change (update q.nodes n _ m).next = _
  rcases eq_or_ne m n with rfl | hm
  · rw [update_self]
  · rw [update_of_ne hm]

theorem SameLinks.lag (h : SameLinks q q') : lag q' = lag q := by
  rw [LockFreeQueue.lag, h.chain, h.tail, LockFreeQueue.lag]

theorem SameLinks.rank (h : SameLinks q q') {pc : Pc T} (hok : PcOk q pc) : rank q' pc = rank q pc := by
  cases pc with
  | idle => rfl
  | pop pc => cases pc <;> simp only [LockFreeQueue.rank, popRank, h.head]
  | push item pc =>
    cases pc with
    | link n t => simp only [LockFreeQueue.rank, putRank, h.next t hok.1.2]
    | _ => simp only [LockFreeQueue.rank, putRank, h.tail]

theorem lag_of (hi : QInv q) {j t : Nat} (htail : q.tail = some t) (ht : q.chain[j]? = some t) :
    lag q = q.chain.length - j := by
  obtain ⟨hj, rfl⟩ := List.getElem?_eq_some_iff.1 ht
  rw [lag, htail, Option.getD_some, hi.nodup.idxOf_getElem]

theorem lag_pos (hi : QInv q) : 0 < lag q := by
  obtain ⟨t, ht, htail⟩ := hi.tail
  obtain ⟨j, hj⟩ := List.mem_iff_getElem?.1 ht
  obtain ⟨hlt, -⟩ := List.getElem?_eq_some_iff.1 hj
  rw [lag_of hi htail hj]
  omega

theorem lag_le (q : Queue T) : lag q ≤ q.chain.length := Nat.sub_le ..

/-- A successful help. -/
theorem lag_help (hi : QInv q) {t : Nat} {next : Ptr} (htail : q.tail = some t) (ht : t ∈ q.chain)
    (hnext : (q.nodes t).next = next) (hsome : next ≠ none) : lag (q.setTail next) < lag q := by
  obtain ⟨m, rfl⟩ := Option.ne_none_iff_exists'.1 hsome
  obtain ⟨j, hj⟩ := List.mem_iff_getElem?.1 ht
  have hm : q.chain[j + 1]? = some m := (hi.next j t hj).symm.trans hnext
  obtain ⟨hlt, -⟩ := List.getElem?_eq_some_iff.1 hm
  have hi' : QInv (q.setTail (some m)) := hi.setTail (List.mem_of_getElem? hm)
  rw [lag_of hi htail hj, lag_of hi' rfl hm]
  change q.chain.length - (j + 1) < q.chain.length - j
  omega

end ranks

/-! ### A step that completes nothing -/

/-- What a quiet step of a `Push` from `pc` to `pc'` does. -/
inductive PutQuiet (q : Queue T) : PutPc → Queue T → PutPc → Prop where
  | near {pc pc' : PutPc} {q' : Queue T} (links : SameLinks q q') (rank : putRank q' pc' < putRank q pc)
      (unlinked : ∀ n, pc ≠ .swing n) (still : ∀ n, pc' ≠ .swing n) : PutQuiet q pc q' pc'
  | help {n t : Nat} {next : Ptr} (tail : q.tail = some t) :
      PutQuiet q (.help n t next) (q.setTail next) (.loadTail n)
  | swing {n : Nat} {q' : Queue T} (chain : q'.chain = q.chain) : PutQuiet q (.swing n) q' .bump

section quiet

variable {q q' : Queue T} {sp : Bool}

theorem putStep_quiet {pc pc' : PutPc} {o : Ptr} (h : putStep q sp o pc = some (q', pc'))
    (hhelp : ∀ n t next, pc = .help n t next → sp = false)
    (hlink : ∀ n t, pc = .link n t → (q.nodes t).next ≠ none) : PutQuiet q pc q' pc' := by
  cases pc with
  | loadTail n =>
    obtain ⟨t, ht, he⟩ := Option.map_eq_some_iff.1 h
    obtain ⟨rfl, rfl⟩ := Prod.mk.inj he
    refine .near (.refl q) ?_ (by rintro _ ⟨⟩) (by rintro _ ⟨⟩)
    simp only [putRank, ht, if_true]
    omega
  | readNext n t =>
    obtain ⟨rfl, rfl⟩ := Prod.mk.inj (Option.some.inj h)
    split
    · refine .near (.refl q) ?_ (by rintro _ ⟨⟩) (by rintro _ ⟨⟩)
      simp only [putRank]
      split <;> omega
    · next hnone =>
      refine .near (.refl q) ?_ (by rintro _ ⟨⟩) (by rintro _ ⟨⟩)
      simp only [putRank, Decidable.not_not.1 hnone, if_true]
      split <;> omega
  | readNext2 n t =>
    obtain ⟨rfl, rfl⟩ := Prod.mk.inj (Option.some.inj h)
    refine .near (.refl q) ?_ (by rintro _ ⟨⟩) (by rintro _ ⟨⟩)
    simp only [putRank]
    split <;> omega
  | help n t next =>
    simp only [putStep] at h
    split at h
    · next hc =>
      obtain ⟨rfl, rfl⟩ := Prod.mk.inj (Option.some.inj h)
      exact .help hc.2
    · next hc =>
      -- `tail_` has moved on, and the CAS leaves its value in `curr_tail`
      have hne : q.tail ≠ some t := fun ht => hc ⟨hhelp n t next rfl, ht⟩
      obtain ⟨t', ht', he⟩ := Option.map_eq_some_iff.1 h
      obtain ⟨rfl, rfl⟩ := Prod.mk.inj he
      refine .near (.refl q) ?_ (by rintro _ ⟨⟩) (by rintro _ ⟨⟩)
      simp only [putRank, if_neg hne]
      split <;> omega
  | link n t =>
    have hnext := hlink n t rfl
    simp only [putStep, hnext, and_false, if_false] at h
    obtain ⟨rfl, rfl⟩ := Prod.mk.inj (Option.some.inj h)
    refine .near (.refl q) ?_ (by rintro _ ⟨⟩) (by rintro _ ⟨⟩)
    simp only [putRank, hnext, if_false]
    omega
  | swing n =>
    obtain ⟨rfl, rfl⟩ := Prod.mk.inj (Option.some.inj h)
    refine .swing ?_
    split <;> rfl
  | bump =>
    obtain ⟨rfl, rfl⟩ := Prod.mk.inj (Option.some.inj h)
    refine .near ⟨rfl, rfl, rfl, fun _ _ => rfl⟩ ?_ (by rintro _ ⟨⟩) (by rintro _ ⟨⟩)
    simp only [putRank]
    omega
  | done => cases h

theorem popStep_quiet {pc pc' : PopPc T} (h : popStep q sp pc = some (q', pc'))
    (hread : ∀ n, pc = .readNext n → (q.nodes n).next ≠ none)
    (hcas : ∀ n next, pc = .casHead n next → q.head ≠ some n) :
    SameLinks q q' ∧ popRank q' pc' < popRank q pc := by
  cases pc with
  | loadHead =>
    obtain ⟨n, hn, he⟩ := Option.map_eq_some_iff.1 h
    obtain ⟨rfl, rfl⟩ := Prod.mk.inj he
    refine ⟨.refl q, ?_⟩
    simp only [popRank, hn, if_true]
    omega
  | readNext n =>
    obtain ⟨rfl, rfl⟩ := Prod.mk.inj (Option.some.inj h)
    refine ⟨.refl q, ?_⟩
    simp only [if_neg (hread n rfl), popRank]
    split <;> omega
  | readNext2 n =>
    obtain ⟨rfl, rfl⟩ := Prod.mk.inj (Option.some.inj h)
    refine ⟨.refl q, ?_⟩
    simp only [popRank]
    split <;> omega
  | casHead n next =>
    have hne := hcas n next rfl
    simp only [popStep, hne, and_false, if_false] at h
    obtain ⟨rfl, rfl⟩ := Prod.mk.inj (Option.some.inj h)
    refine ⟨.refl q, ?_⟩
    simp only [popRank, if_neg hne]
    omega
  | readNext3 n =>
    obtain ⟨nh, -, he⟩ := Option.map_eq_some_iff.1 h
    obtain ⟨rfl, rfl⟩ := Prod.mk.inj he
    exact ⟨.refl q, Nat.lt_succ_self 12⟩
  | moveValue n nh =>
    obtain ⟨item, -, he⟩ := Option.map_eq_some_iff.1 h
    obtain ⟨rfl, rfl⟩ := Prod.mk.inj he
    exact ⟨.moveOut q nh, Nat.lt_succ_self 11⟩
  | subSize item =>
    obtain ⟨rfl, rfl⟩ := Prod.mk.inj (Option.some.inj h)
    exact ⟨⟨rfl, rfl, rfl, fun _ _ => rfl⟩, Nat.lt_succ_self 10⟩
  | empty => cases h
  | popped item => cases h

end quiet

section progress

variable [DecidableEq ι] [Fintype ι]

omit [DecidableEq ι] in
/-- For `tail_`: each thread that is about to end its `Push` may put it back once. -/
def shared (s : State ι T) : Nat := count (fun pc => pc.unfinished = true) s.pc * s.q.chain.length + lag s.q

/-- A step of thread `i` that the others do not notice. -/
theorem nearer {s : State ι T} (hi : Shape s) {i : ι} {q' : Queue T} {pc' : Pc T} (hlinks : SameLinks s.q q')
    (hrank : rank q' pc' < rank s.q (s.pc i)) (hpc : pc'.unfinished = (s.pc i).unfinished) :
    shared ((s.setQ q').setPc i pc') = shared s ∧
      ∃ j, rank q' (update s.pc i pc' j) < rank s.q (s.pc j) ∧
        ∀ k, k ≠ j → rank q' (update s.pc i pc' k) ≤ rank s.q (s.pc k) := by
  refine ⟨?_, i, ?_, fun k hk => ?_⟩
  · change count _ (update s.pc i pc') * q'.chain.length + lag q' = _
    rw [count_update_same (by rw [hpc]), hlinks.chain, hlinks.lag, shared]
  · rwa [update_self]
  · rw [update_of_ne hk, hlinks.rank (hi.ok k)]

/-- The CAS that ends a `Push` may put `tail_` back, but the `Push` is then over. -/
theorem shared_swing {s : State ι T} (hi : Shape s) {i : ι} {item : T} {n : Nat} {q' : Queue T}
    (hpc : s.pc i = .push item (.swing n)) (hchain : q'.chain = s.q.chain) :
    shared ((s.setQ q').setPc i (.push item .bump)) < shared s := by
  have hcount : count (fun pc => pc.unfinished = true) (update s.pc i (.push item .bump)) + 1 =
      count (fun pc => pc.unfinished = true) s.pc := count_update_leave (by rw [hpc]; rfl) (by rintro ⟨⟩)
  change count _ (update s.pc i (.push item .bump)) * q'.chain.length + lag q' < _
  calc count _ (update s.pc i (.push item .bump)) * q'.chain.length + lag q'
      ≤ count _ (update s.pc i (.push item .bump)) * q'.chain.length + q'.chain.length :=
        Nat.add_le_add_left (lag_le q') _
    _ = count (fun pc => pc.unfinished = true) s.pc * s.q.chain.length := by rw [← hcount, Nat.succ_mul, hchain]
    _ < shared s := Nat.lt_add_of_pos_right (lag_pos hi.inv)

theorem shared_help {s : State ι T} (hi : Shape s) {i : ι} {item : T} {n t : Nat} {next : Ptr}
    (hpc : s.pc i = .push item (.help n t next)) (htail : s.q.tail = some t) :
    shared ((s.setQ (s.q.setTail next)).setPc i (.push item (.loadTail n))) < shared s := by
  have hok : PcOk s.q (.push item (.help n t next)) := hpc ▸ hi.ok i
  obtain ⟨⟨-, ht, hnext, hsome⟩, -⟩ := hok
  change count _ (update s.pc i _) * s.q.chain.length + lag (s.q.setTail next) < _
  rw [count_update_same (by rw [hpc]; rfl)]
  exact Nat.add_lt_add_left (lag_help hi.inv htail ht hnext hsome) _

/-- Every step that neither completes an operation nor fails spuriously gets somebody nearer. -/
theorem quiet_step {s s' : State ι T} {a : Act ι T} (hi : Shape s) (hc : ¬ completes s a) (hf : ¬ fails s a)
    (hs : step s a = some s') : shared s' < shared s ∨ shared s' = shared s ∧
      ∃ i, rank s'.q (s'.pc i) < rank s.q (s.pc i) ∧ ∀ j, j ≠ i → rank s'.q (s'.pc j) ≤ rank s.q (s.pc j) := by
  cases a with
  | push i item =>
    simp only [step] at hs
    split at hs
    · next hpc =>
      obtain rfl := Option.some.inj hs
      exact .inr (nearer hi (.newNode hi.inv item) (by rw [hpc]; exact Nat.le_add_left 5 4) (by rw [hpc]; rfl))
    · cases hs
  | tryPop i =>
    simp only [step] at hs
    split at hs
    · next hpc =>
      obtain rfl := Option.some.inj hs
      exact .inr (nearer hi (.refl s.q) (by rw [hpc]; exact Nat.le_add_left 5 4) (by rw [hpc]; rfl))
    · cases hs
  | finish i =>
    have hend : ∀ pc, s.pc i = pc → rank s.q pc = 10 → pc.unfinished = false →
        shared (s.setPc i .idle) < shared s ∨ shared (s.setPc i .idle) = shared s ∧
          ∃ j, rank s.q ((s.setPc i .idle).pc j) < rank s.q (s.pc j) ∧
            ∀ k, k ≠ j → rank s.q ((s.setPc i .idle).pc k) ≤ rank s.q (s.pc k) := by
      intro pc hpc hrank hun
      exact .inr (nearer hi (.refl s.q) (by rw [hpc, hrank]; exact Nat.lt_succ_self 9) (by rw [hpc, hun]; rfl))
    simp only [step] at hs
    split at hs
    · next hpc => obtain rfl := Option.some.inj hs; exact hend _ hpc rfl rfl
    · next hpc => obtain rfl := Option.some.inj hs; exact hend _ hpc rfl rfl
    · next hpc => obtain rfl := Option.some.inj hs; exact hend _ hpc rfl rfl
    · cases hs
  | step i sp o =>
    simp only [step] at hs
    simp only [completes] at hc
    simp only [fails] at hf
    split at hs
    · cases hs
    · next item pc hpc =>
      obtain ⟨⟨q', pc'⟩, hx, rfl⟩ := Option.map_eq_some_iff.1 hs
      rw [hpc] at hc hf
      have hquiet : PutQuiet s.q pc q' pc' := by
        refine putStep_quiet hx ?_ ?_
        · rintro n t next rfl
          exact Bool.eq_false_of_not_eq_true hf
        · rintro n t rfl hnone
          exact hc ⟨Bool.eq_false_of_not_eq_true hf, hnone⟩
      cases hquiet with
      | near links hrank unlinked still =>
        have hun : ∀ pc : PutPc, (∀ n, pc ≠ .swing n) → (Pc.push item pc).unfinished = false := by
          intro pc h
          cases pc with
          | swing n => exact absurd rfl (h n)
          | _ => rfl
        refine .inr (nearer hi links (by rw [hpc]; exact hrank) ?_)
        rw [hpc, hun _ unlinked, hun _ still]
      | help tail => exact .inl (shared_help hi hpc tail)
      | swing chain => exact .inl (shared_swing hi hpc chain)
    · next pc hpc =>
      obtain ⟨⟨q', pc'⟩, hx, rfl⟩ := Option.map_eq_some_iff.1 hs
      rw [hpc] at hc hf
      have hquiet : SameLinks s.q q' ∧ popRank q' pc' < popRank s.q pc := by
        refine popStep_quiet hx ?_ ?_
        · rintro n rfl
          exact hc
        · rintro n next rfl hhead
          exact hc ⟨Bool.eq_false_of_not_eq_true hf, hhead⟩
      exact .inr (nearer hi hquiet.1 (by rw [hpc]; exact hquiet.2) (by rw [hpc]; rfl))

omit [Fintype ι] in
theorem shape_of_reach {s : State ι T} (r : Reach (system ι T) anyStep s) : Shape s := by
  obtain ⟨h, r⟩ := r
  refine (r.invariant (I := Inv) ?_ fun h s a s' hi _ hs => inv_step hi hs).toShape
  rintro s rfl
  exact inv_init

def potential : Potential (system ι T) (fun s a => ¬ completes s a ∧ ¬ fails s a) ι where
  shared := shared
  rank s i := rank s.q (s.pc i)
  step _ _ _ r hq hs := quiet_step (shape_of_reach r) hq.1 hq.2 hs

variable (ι T) in
/-- Whatever the threads do, as long as they take steps `Push`es and `TryPop`s take effect. -/
theorem push_pop_lock_free : LockFree (system ι T) completes fails := (potential (ι := ι) (T := T)).lockFree

end progress

/-! ### Rounds of `Push` and `TryPop` -/

section rounds

/-- `head_` and `tail_` are at the last node, and nobody is in a call. -/
structure AtRest (s : State (Fin 2) Nat) : Prop where
  last : ∃ t < s.q.allocs, s.q.head = some t ∧ s.q.tail = some t ∧ (s.q.nodes t).next = none
  pc : ∀ i, s.pc i = .idle

/-- Thread 0 pushes 7, and both threads call `TryPop`: the CAS of thread 1 fails, and it finds nothing then. -/
def pushAndPops (t : Nat) : List (Act (Fin 2) Nat) :=
  [.push 0 7, .step 0 false none, .step 0 false none, .step 0 false none, .step 0 false (some t), .step 0 false none,
    .finish 0, .tryPop 0, .tryPop 1, .step 0 false none, .step 1 false none, .step 0 false none, .step 1 false none,
    .step 0 false none, .step 1 false none, .step 0 false none, .step 1 false none, .step 1 false none,
    .step 1 false none, .finish 1, .step 0 false none, .step 0 false none, .step 0 false none, .finish 0]

/-- No CAS fails although the values are equal. -/
def isNotSpurious (_ : State (Fin 2) Nat) (a : Act (Fin 2) Nat) : Bool :=
  a matches .step _ false _ | .push _ _ | .tryPop _ | .finish _

theorem AtRest.round {s : State (Fin 2) Nat} (h : AtRest s) : Leads (system (Fin 2) Nat) isNotSpurious s AtRest := by
  obtain ⟨⟨nodes, allocs, head, tail, size, garbage, freed, chain, values, taken, added, removed⟩, pc⟩ := s
  obtain ⟨⟨t, hlt, hhead, htail, hnext⟩, hpc⟩ := h
  dsimp only at hlt hhead htail hnext hpc
  subst hhead htail
  obtain rfl : pc = fun _ => .idle := funext hpc
  have hne : t ≠ allocs := hlt.ne
  refine ⟨pushAndPops t, ?_⟩
  simp [pushAndPops, exec_cons, exec_nil, isNotSpurious, system, step, State.setPc, State.setQ, putStep, popStep,
    Queue.newNode, Queue.link, Queue.setTail, Queue.addSize, Queue.subSize, Queue.advance, Queue.moveOut,
    hnext, hne, hne.symm]
  refine ⟨⟨allocs, Nat.lt_succ_self _, rfl, rfl, by simp⟩, fun i => ?_⟩
  obtain rfl | rfl := Fin.exists_fin_two.1 ⟨i, rfl⟩ <;> rfl

/-- `Push`es and `TryPop`s forever; one of the two `TryPop`s of a round gets into the way of the other. -/
theorem pushes_and_pops_forever : ∃ r : Infinite (system (Fin 2) Nat),
    (∀ n, isNotSpurious (r.state n) (r.act n) = true) ∧ ∀ n, ∃ m, n ≤ m ∧ completes (r.state m) (r.act m) := by
  have hfails : ∀ s a, isNotSpurious s a = true → ¬ fails s a := by
    intro s a h hf
    unfold isNotSpurious at h
    unfold fails at hf
    split at hf
    · split at hf <;> first | exact hf | (subst hf; cases h)
    · exact hf
  obtain ⟨r, -, hr⟩ := Infinite.of_rounds (fun _ => AtRest.round) (.init rfl)
    (⟨⟨0, Nat.one_pos, rfl, rfl, rfl⟩, fun _ => rfl⟩ : AtRest init)
  exact ⟨r, hr, push_pop_lock_free (Fin 2) Nat r ⟨0, fun m _ => hfails _ _ (hr m)⟩⟩

end rounds

end LockFreeQueue
