import ConcurrencyCourse.Lib.Progress
import ConcurrencyCourse.Stack.Lifo

/-!
# When the stamped Treiber stack is lock-free (lockfree/stack/lock_free_stack.hpp)

A `TryPop` that has counted itself in the stamp of `head_` makes the CASes of all the others fail, and has completed
nothing. Two `TryPop`s can go on so (`Counted.go_round`), but each time the stamp is one higher: as long as no stamp
exceeds 65535, `head_` can be counted only so many times before somebody moves it (`shared`).
-/

namespace Stack

open Transition StampedPtr Function

variable {ι A V : Type} [DecidableEq A]

/-- A weak CAS fails although the words are equal. -/
def fails (s : State ι A V) : Act ι A V → Prop
  | .go t spurious => match s.loc t with
    | .pushCas _ _ | .popInc _ _ | .popUnlink _ _ _ _ => spurious = true
    | _ => False
  | _ => False

/-! ### What is left to do -/

/-- For a CAS of `head_` with the word `w`: how far it is when it will succeed, and when not. -/
def toCas (head w : StampedPtr A) (near far : Nat) : Nat := if head = w.packed then near else far

/-- How many steps a thread is from a CAS that succeeds, or from the end of its call and the one after it. -/
def rank (head : StampedPtr A) (heap : A → Option (Node A V)) : Local A V → Nat
  | .idle => 9
  | .pushLoad _ _ => 3
  | .pushCas a _ => (heap a).elim 0 fun n => toCas head n.next 1 2
  | .popLoad => 4
  | .popInc p k => toCas head ⟨some p, k⟩ 3 5
  | .popNext p k _ => toCas head ⟨some p, k⟩ 2 8
  | .popUnlink p k _ _ => toCas head ⟨some p, k⟩ 1 7
  | .popMove _ _ _ => 13
  | .popAdd _ _ _ _ => 12
  | .popSub _ _ => 6
  | .delete _ _ none => 5
  | .delete _ _ (some _) => 11
  | .popDone _ => 10

/-- How often `head_` can be counted. -/
def shared (s : State ι A V) : Nat := maxStamp - s.head.stamp

theorem Inv.head_packed [Fintype ι] {s : State ι A V} {L : List (A × Nat)} (hi : Inv s L) :
    s.head.packed = s.head := packed_of_le (hi.head ▸ wordOf_stamp_le hi.stamps)

section steps

variable [DecidableEq ι] [Fintype ι] {s s' : State ι A V} {L : List (A × Nat)} {t : ι} {a : Act ι A V}

omit [Fintype ι] in
/-- `next` of a node is written by the thread that pushes it. -/
theorem step_next (hs : step s a = some s') (b : A) : (s'.heap b).map Node.next = (s.heap b).map Node.next ∨
    0 < (s.loc a.thread).pusher b + (s.loc a.thread).deleter b ∨ s.heap b = none := by
  have hwrite : ∀ {heap : A → Option (Node A V)} {p : A} {n n' : Node A V}, heap p = some n → n'.next = n.next →
      (update heap p (some n') b).map Node.next = (heap b).map Node.next := by
    intro heap p n n' hn hnext
    rcases eq_or_ne b p with rfl | hne
    · rw [update_self, hn, Option.map_some, Option.map_some, hnext]
    · rw [update_of_ne hne]
  have hself : ∀ {p : A} {o : Option (Node A V)}, b ≠ p → (update s.heap p o b).map Node.next =
      (s.heap b).map Node.next := fun hne => by rw [update_of_ne hne]
  cases a with
  | push t v a =>
    simp only [step] at hs
    split at hs
    · next ha =>
      obtain rfl := Option.some.inj hs
      rcases eq_or_ne b a with rfl | hne
      · exact .inr (.inr ha)
      · exact .inl (hself hne)
    · cases hs
  | pop t =>
    simp only [step] at hs
    split at hs
    · obtain rfl := Option.some.inj hs
      exact .inl rfl
    · cases hs
  | go t sp =>
    change _ ∨ 0 < (s.loc t).pusher b + (s.loc t).deleter b ∨ _
    simp only [step, go] at hs
    split at hs
    case h_1 => cases hs
    case h_2 a id hl =>
      obtain ⟨m, -, rfl⟩ := Option.map_eq_some_iff.1 hs
      rcases eq_or_ne b a with rfl | hne
      · exact .inr (.inl (by rw [hl]; simp [Local.pusher]))
      · exact .inl (hself hne)
    case h_3 a id hl =>
      obtain ⟨m, -, rfl⟩ := Option.map_eq_some_iff.1 hs
      rcases eq_or_ne b a with rfl | hne
      · exact .inr (.inl (by rw [hl]; simp [Local.pusher]))
      · split
        · exact .inl rfl
        · exact .inl (hself hne)
    case h_4 | h_5 | h_7 =>
      split at hs <;> obtain rfl := Option.some.inj hs <;> exact .inl rfl
    case h_6 | h_8 =>
      obtain ⟨m, -, rfl⟩ := Option.map_eq_some_iff.1 hs
      exact .inl rfl
    case h_9 | h_10 =>
      obtain ⟨m, hm, rfl⟩ := Option.map_eq_some_iff.1 hs
      exact .inl (hwrite hm rfl)
    case h_11 p id res hl =>
      obtain ⟨m, -, rfl⟩ := Option.map_eq_some_iff.1 hs
      rcases eq_or_ne b p with rfl | hne
      · exact .inr (.inl (by rw [hl]; simp [Local.deleter]))
      · exact .inl (hself hne)
    case h_12 =>
      obtain rfl := Option.some.inj hs
      exact .inl rfl

/-- The node that a thread is pushing is written by nobody else. -/
theorem Inv.next_kept (hi : Inv s L) (hs : step s a = some s') {u : ι} (hu : u ≠ a.thread) {b : A}
    {id : Option Nat} (hb : s.loc u = .pushCas b id) : (s'.heap b).map Node.next = (s.heap b).map Node.next := by
  obtain ⟨n, hn, -⟩ := (hi.loc u).means b id (by rw [hb]; rfl)
  have hpush : (s.loc u).pusher b = 1 := by rw [hb]; exact if_pos rfl
  have haddr := hi.addr b
  rw [hn] at haddr
  simp only [AddrOk, counts] at haddr
  rcases step_next hs b with h | h | h
  · exact h
  · have h1 := Threads.add_le_sum (fun t => (s.loc t).pusher b) hu
    have h2 := Threads.le_sum (fun t => (s.loc t).pusher b) u
    have h3 := Threads.le_sum (fun t => (s.loc t).deleter b) a.thread
    omega
  · rw [hn] at h
    cases h

/-- What a step that takes no effect does. -/
inductive Quiet (s : State ι A V) (t : ι) : State ι A V → Prop where
  | near {s' : State ι A V} : s'.head = s.head → rank s'.head s'.heap (s'.loc t) < rank s.head s.heap (s.loc t) →
      Quiet s t s'
  | counted {s' : State ι A V} : shared s' < shared s → Quiet s t s'

omit [Fintype ι] in
/-- The thread goes on, and leaves `head_` and its node alone. -/
theorem Quiet.go {l x : Local A V} (hl : s.loc t = l) (hr : rank s.head s.heap x < rank s.head s.heap l) :
    Quiet s t (s.setLoc t x) := by
  refine .near rfl ?_
  rw [hl, setLoc_loc, update_self]
  exact hr

theorem go_quiet {spurious : Bool} (hi : Inv s L) (hok : StampFits s (.go t spurious))
    (hs : Stack.go s t spurious = some s') (he : event s (.go t spurious) = none)
    (hf : ¬ fails s (.go t spurious)) : Quiet s t s' := by
  have hpacked := hi.head_packed
  simp only [Stack.go] at hs
  simp only [event] at he
  simp only [fails] at hf
  split at hs
  case h_1 => cases hs
  case h_2 a id hl =>
    obtain ⟨n, -, rfl⟩ := Option.map_eq_some_iff.1 hs
    refine .near rfl ?_
    rw [hl, setLoc_loc, setLoc_heap, setNode_heap, update_self]
    simp only [rank, toCas, update_self, Option.elim_some]
    split <;> omega
  case h_3 a id hl =>
    rw [hl] at he hf
    obtain ⟨n, hn, rfl⟩ := Option.map_eq_some_iff.1 hs
    have hsp : spurious = false := Bool.eq_false_of_not_eq_true hf
    have hne : s.head ≠ n.next.packed := by
      intro heq
      simp only [hn, hsp, heq, true_and, if_true] at he
      cases he
    rw [if_neg fun h => hne h.2]
    refine .near rfl ?_
    -- the failed CAS has read `head_`
    have hread : toCas s.head s.head 1 2 = 1 := if_pos hpacked.symm
    have hold : toCas s.head n.next 1 2 = 2 := if_neg hne
    rw [hl, setLoc_loc, setLoc_heap, setNode_heap, update_self]
    simp only [rank, update_self, hn, Option.elim_some, hold]
    exact hread.symm ▸ Nat.lt_succ_self 1
  case h_4 hl =>
    rw [hl] at he
    split at hs
    · next hnull =>
      simp only [hnull, if_true] at he
      cases he
    · next p hraw =>
      obtain rfl := Option.some.inj hs
      refine .go hl ?_
      have hhead : s.head = (StampedPtr.mk (some p) s.head.stamp).packed := by
        rw [← hraw]
        exact hpacked.symm
      exact (if_pos hhead).trans_lt (Nat.lt_succ_self 3)
  case h_5 p k hl =>
    rw [hl] at hf
    split at hs
    · next hc =>
      obtain rfl := Option.some.inj hs
      refine .counted ?_
      have hk : k ≤ maxStamp := by
        have h := (hi.loc t).stamp
        rwa [hl] at h
      have hhead : s.head = ⟨some p, k⟩ := hc.2.trans (packed_of_le hk)
      have hk' := hok p k hl hhead
      change maxStamp - ((k + 1) % 2 ^ 16) < maxStamp - s.head.stamp
      rw [hhead]
      simp only [maxStamp] at hk' ⊢
      omega
    · next hc =>
      obtain rfl := Option.some.inj hs
      refine .go hl ?_
      have hne : s.head ≠ (StampedPtr.mk (some p) k).packed := fun h =>
        hc ⟨Bool.eq_false_of_not_eq_true hf, h⟩
      exact (Nat.lt_succ_self 4).trans_eq (if_neg hne).symm
  case h_6 p k id hl =>
    obtain ⟨n, -, rfl⟩ := Option.map_eq_some_iff.1 hs
    refine .go hl ?_
    simp only [rank, toCas]
    split <;> omega
  case h_7 p k nx id hl =>
    rw [hl] at he hf
    have hsp : spurious = false := Bool.eq_false_of_not_eq_true hf
    obtain ⟨n, hn, -⟩ := (hi.loc t).means p id (by rw [hl]; rfl)
    have hne : s.head ≠ (StampedPtr.mk (some p) k).packed := by
      intro heq
      simp only [hn, hsp, heq, true_and, if_true] at he
      cases he
    rw [if_neg fun h => hne h.2] at hs
    obtain rfl := Option.some.inj hs
    exact .go hl ((Nat.lt_succ_self 6).trans_eq (if_neg hne).symm)
  case h_8 p k id hl =>
    obtain ⟨n, -, rfl⟩ := Option.map_eq_some_iff.1 hs
    exact .go hl (Nat.lt_succ_self 12)
  case h_9 p k id v hl =>
    obtain ⟨n, -, rfl⟩ := Option.map_eq_some_iff.1 hs
    refine .near rfl ?_
    rw [hl, setLoc_loc, update_self]
    split
    · exact Nat.lt_succ_self 11
    · exact Nat.lt_succ_of_lt (Nat.lt_succ_self 10)
  case h_10 p id hl =>
    obtain ⟨n, -, rfl⟩ := Option.map_eq_some_iff.1 hs
    refine .near rfl ?_
    rw [hl, setLoc_loc, update_self]
    split
    · exact Nat.lt_succ_self 5
    · exact Nat.lt_succ_of_lt (Nat.lt_succ_self 4)
  case h_11 p id res hl =>
    obtain ⟨n, -, rfl⟩ := Option.map_eq_some_iff.1 hs
    refine .near rfl ?_
    rw [hl, setLoc_loc, update_self]
    cases res with
    | none => exact Nat.lt_succ_self 4
    | some v => exact Nat.lt_succ_self 10
  case h_12 res hl =>
    obtain rfl := Option.some.inj hs
    exact .go hl (Nat.lt_succ_self 9)

theorem quiet_step (hi : Inv s L) (hok : StampFits s a) (hs : step s a = some s') (he : event s a = none)
    (hf : ¬ fails s a) : Quiet s a.thread s' := by
  cases a with
  | push t v a =>
    simp only [step] at hs
    split at hs
    · next hl _ =>
      obtain rfl := Option.some.inj hs
      refine .near rfl ?_
      rw [Act.thread, hl, setLoc_loc, update_self]
      exact Nat.lt_of_lt_of_le (Nat.lt_succ_self 3) (Nat.le_add_left 4 5)
    · cases hs
  | pop t =>
    simp only [step] at hs
    split at hs
    · next hl =>
      obtain rfl := Option.some.inj hs
      exact .go hl (Nat.lt_of_lt_of_le (Nat.lt_succ_self 4) (Nat.le_add_left 5 4))
    · cases hs
  | go t sp => exact go_quiet hi hok hs he hf

/-- The step of another thread takes nobody further away. -/
theorem Inv.rank_kept (hi : Inv s L) (hs : step s a = some s') (hhead : s'.head = s.head) {u : ι} (hu : u ≠ a.thread) :
    rank s'.head s'.heap (s'.loc u) = rank s.head s.heap (s.loc u) := by
  rw [step_others hs hu, hhead]
  cases hl : s.loc u with
  | pushCas b id =>
    have helim : ∀ o : Option (Node A V), (o.elim 0 fun n => toCas s.head n.next 1 2) =
        (o.map Node.next).elim 0 fun w => toCas s.head w 1 2 := fun o => by cases o <;> rfl
    rw [rank, rank, helim, helim, hi.next_kept hs hu hl]
  | delete p id res => cases res <;> rfl
  | _ => rfl

def potential : Potential ((system ι A V).restrict StampFits) (fun s a => ¬ (event s a).isSome ∧ ¬ fails s a) ι where
  shared := shared
  rank s t := rank s.head s.heap (s.loc t)
  step s a s' r hq hs := by
    obtain ⟨L, hi⟩ := inv_of_reach (reach_restrict.1 r)
    by_cases hok : StampFits s a
    · replace hs : step s a = some s' := (if_pos hok).symm.trans hs
      have he : event s a = none := Option.not_isSome_iff_eq_none.1 hq.1
      cases quiet_step hi hok hs he hq.2 with
      | near hhead hrank =>
        refine .inr ⟨congrArg (maxStamp - ·.stamp) hhead, a.thread, hrank, fun u hu => ?_⟩
        exact (hi.rank_kept hs hhead hu).le
      | counted hshared => exact .inl hshared
    · cases (if_neg hok).symm.trans hs

end steps

/-! ### `TryPop`s that make each other fail -/

section round

variable [DecidableEq ι] {s : State ι A V} {t u : ι} {p : A}

/-- Two `TryPop`s have counted themselves in the same word; the CAS of `t` will succeed, that of `u` will not. -/
structure Counted (s : State ι A V) (t u : ι) (p : A) : Prop where
  node : ∃ n, s.heap p = some n ∧ n.inner ≤ 0
  newest : ∃ k nx id, s.loc t = .popUnlink p k nx id ∧ s.head = (StampedPtr.mk (some p) k).packed
  stale : ∃ k nx id, s.loc u = .popUnlink p k nx id ∧ s.head ≠ (StampedPtr.mk (some p) k).packed

/-- A step of one of the threads, not a failure of the environment, with which nothing takes effect. -/
def useless (threads : ι → Bool) (s : State ι A V) : Act ι A V → Bool
  | .go t false => threads t && (event s (.go t false)).isNone
  | _ => false

/-- Thread `t` pushes the only node, and then `u` and `t` count themselves in the word that points to it. -/
def pushAndPop (t u : ι) (a : A) (v : V) : List (Act ι A V) :=
  [.push t v a, .go t false, .go t false, .pop u, .go u false, .go u false, .go u false,
    .pop t, .go t false, .go t false, .go t false]

/-- Where that leads. -/
def popping (t u : ι) (a : A) (v : V) : State ι A V :=
  { head := ⟨some a, 2⟩
    heap := update (fun _ => none) a (some ⟨v, .null, 0, 0⟩)
    loc := update (update (fun _ => .idle) u (.popUnlink a 1 .null (some 0))) t (.popUnlink a 2 .null (some 0))
    allocs := 1, popped := [], deleted := [] }

theorem exec_pushAndPop (hne : t ≠ u) (a : A) (v : V) :
    exec (system ι A V) noCheck init (pushAndPop t u a v) = some (popping t u a v) := by
  simp [pushAndPop, popping, exec_cons, exec_nil, noCheck, system, step, init, Stack.go, State.alloc, State.setLoc,
    State.setNode, State.setHead, State.idAt, null, packed, incrementStamp, hne]

end round

section main

variable [DecidableEq ι] [Fintype ι]

/-- Thread 0 pushes 5, and both threads count themselves in `head_`; the one that came first finds it changed, and the
other one pops 5 and deletes the node. -/
def pushAndPopRound : List (Act (Fin 2) Nat Nat) :=
  [.push 0 5 0, .go 0 false, .go 0 false, .pop 0, .go 0 false, .pop 1, .go 1 false, .go 1 false,
    .go 0 false, .go 0 false, .go 0 false, .go 0 false, .go 1 false, .go 1 false, .go 0 false, .go 1 false,
    .go 0 false, .go 0 false, .go 0 false, .go 0 false, .go 1 false, .go 1 false]

/-- No node, and nobody in a call. -/
structure AtRest (s : State (Fin 2) Nat Nat) : Prop where
  head : s.head = .null
  heap : ∀ a, s.heap a = none
  loc : ∀ t, s.loc t = .idle

def roundCheck (s : State (Fin 2) Nat Nat) (a : Act (Fin 2) Nat Nat) : Bool :=
  stampCheck s a && (a matches .go _ false | .push _ _ _ | .pop _)

theorem AtRest.round {s : State (Fin 2) Nat Nat} (h : AtRest s) :
    Leads (system (Fin 2) Nat Nat) roundCheck s AtRest := by
  obtain ⟨head, heap, loc, allocs, popped, deleted⟩ := s
  obtain ⟨rfl, hheap, hloc⟩ := h
  obtain rfl : heap = fun _ => none := funext hheap
  obtain rfl : loc = fun _ => .idle := funext hloc
  refine ⟨pushAndPopRound, _, nofun, rfl, rfl, fun a => ?_, fun t => ?_⟩
  · cases a <;> rfl
  · obtain rfl | rfl := Fin.exists_fin_two.1 ⟨t, rfl⟩ <;> rfl

end main

end Stack
