import ConcurrencyCourse.Lib.Threads
import ConcurrencyCourse.Stack.Treiber
import Mathlib.Data.List.Nodup

/-!
# The stamped Treiber stack: split reference counting

For every address the threads are counted by what they are doing to the node on it:

* `refs`: threads that acquired the node and have not released it yet,
* `winners` and `winStamp`: threads that unlinked it and still have to add the stamp, and the
  stamps they will add,
* `pushers`: the thread that has not published it yet,
* `deleters`: the thread about to delete it.

`AddrOk` relates these to `inner_counter` and to the stamp on the word that holds the pointer:
stamp in the chain + stamp of the winner + `inner` = `refs`, a node has at most one role, and a
node without a role is kept alive by its `refs`. The chain of `(address, stamp)` pairs is the
list `L` of `Inv`.
-/

namespace Stack

open Transition StampedPtr

variable {ι A V : Type} [DecidableEq A]

/-! ## The chain -/

/-- The word that points to the first node of a chain. -/
def wordOf : List (A × Nat) → StampedPtr A
  | [] => .null
  | (a, k) :: _ => ⟨some a, k⟩

/-- The word in the `next` field of a node. -/
def Node.nextWord (n : Node A V) : StampedPtr A := n.next.packed

/-- Each node of the chain holds the word of the next one. -/
def Linked (heap : A → Option (Node A V)) : List (A × Nat) → Prop
  | [] => True
  | (a, _) :: l => (heap a).map Node.nextWord = some (wordOf l) ∧ Linked heap l

/-- How often `b` occurs in the chain. -/
def linkedAt : List (A × Nat) → A → Nat
  | [], _ => 0
  | (a, _) :: l, b => (if a = b then 1 else 0) + linkedAt l b

/-- The stamp on the word that points to `b`. -/
def stampAt : List (A × Nat) → A → Nat
  | [], _ => 0
  | (a, k) :: l, b => (if a = b then k else 0) + stampAt l b

theorem linkedAt_pos {L : List (A × Nat)} {b : A} : 0 < linkedAt L b ↔ b ∈ L.map Prod.fst := by
  induction L with
  | nil => simp [linkedAt]
  | cons x L ih =>
    by_cases h : x.1 = b
    · simp only [linkedAt, h, if_true, List.map_cons, List.mem_cons, true_or, iff_true]; omega
    · have : b ≠ x.1 := fun e => h e.symm
      simp [linkedAt, h, ih, this]

theorem stampAt_eq_zero {L : List (A × Nat)} {b : A} (h : linkedAt L b = 0) : stampAt L b = 0 := by
  induction L with
  | nil => rfl
  | cons x L ih =>
    simp only [linkedAt, Nat.add_eq_zero_iff] at h
    by_cases hx : x.1 = b
    · simp [hx] at h
    · simp [stampAt, hx, ih h.2]

omit [DecidableEq A] in
/-- Writes that keep the `next` of the chain's nodes keep the chain. -/
theorem Linked.congr {heap heap' : A → Option (Node A V)} {L : List (A × Nat)}
    (h : Linked heap L)
    (he : ∀ a ∈ L.map Prod.fst, (heap' a).map Node.nextWord = (heap a).map Node.nextWord) :
    Linked heap' L := by
  induction L with
  | nil => trivial
  | cons x L ih =>
    refine ⟨?_, ih h.2 fun a ha => he a (by simp [ha])⟩
    rw [he x.1 (by simp)]; exact h.1

omit [DecidableEq A] in
theorem wordOf_eq_some {L : List (A × Nat)} {a : A} {k : Nat} (h : wordOf L = ⟨some a, k⟩) :
    ∃ l, L = (a, k) :: l := by
  match L, h with
  | (b, j) :: l, h =>
    simp only [wordOf, mk.injEq, Option.some.injEq] at h
    obtain ⟨rfl, rfl⟩ := h
    exact ⟨l, rfl⟩

omit [DecidableEq A] in
theorem wordOf_raw_eq_some {L : List (A × Nat)} {a : A} (h : (wordOf L).raw = some a) :
    ∃ k l, L = (a, k) :: l := by
  match L, h with
  | (b, k) :: l, h =>
    simp only [wordOf, Option.some.injEq] at h
    exact ⟨k, l, by rw [h]⟩

omit [DecidableEq A] in
theorem wordOf_stamp_le {L : List (A × Nat)} (h : ∀ x ∈ L, x.2 ≤ maxStamp) :
    (wordOf L).stamp ≤ maxStamp := by
  cases L with
  | nil => exact Nat.zero_le _
  | cons x l => exact h x (by simp)

omit [DecidableEq A] in
/-- What is reachable from the head word is in the chain. -/
theorem Linked.reachable {heap : A → Option (Node A V)} {p : Option A} {b : A}
    (r : ReachableFrom heap p b) :
    ∀ {L : List (A × Nat)}, Linked heap L → p = (wordOf L).raw → b ∈ L.map Prod.fst := by
  induction r with
  | here a =>
    intro L _ hp
    obtain ⟨k, l, rfl⟩ := wordOf_raw_eq_some hp.symm
    simp
  | next ha _ ih =>
    intro L hL hp
    obtain ⟨k, l, rfl⟩ := wordOf_raw_eq_some hp.symm
    have hn := hL.1
    rw [ha, Option.map_some, Option.some.injEq] at hn
    simp [ih hL.2 (by rw [← hn]; rfl)]

/-! ## What the threads do to a node -/

/-- The thread holds a reference to the node at `b`. -/
def Local.ref (b : A) : Local A V → Nat
  | .popNext p _ _ | .popUnlink p _ _ _ | .popMove p _ _ | .popAdd p _ _ _ | .popSub p _ =>
    if p = b then 1 else 0
  | _ => 0

/-- The thread has unlinked the node at `b` and not folded the stamp in. -/
def Local.winner (b : A) : Local A V → Nat
  | .popMove p _ _ | .popAdd p _ _ _ => if p = b then 1 else 0
  | _ => 0

/-- The stamp it will fold in. -/
def Local.winStamp (b : A) : Local A V → Nat
  | .popMove p k _ | .popAdd p k _ _ => if p = b then k else 0
  | _ => 0

/-- The thread is pushing the node at `b` and has not published it. -/
def Local.pusher (b : A) : Local A V → Nat
  | .pushLoad a _ | .pushCas a _ => if a = b then 1 else 0
  | _ => 0

/-- The thread's next step deletes the node at `b`. -/
def Local.deleter (b : A) : Local A V → Nat
  | .delete p _ _ => if p = b then 1 else 0
  | _ => 0

/-- What is known about an address: its place in the chain, and the counts of the threads. -/
structure Counts where
  linked : Nat
  stamp : Nat
  refs : Nat
  winners : Nat
  winStamp : Nat
  pushers : Nat
  deleters : Nat

/-- A free address is used by nobody. A node has at most one role; the parts of its count add up
to the references; before the stamp is folded in `inner` has only collected releases; and a
node with no role is held by somebody. -/
def AddrOk (n : Option (Node A V)) (c : Counts) : Prop :=
  match n with
  | none => c.linked = 0 ∧ c.refs = 0 ∧ c.winners = 0 ∧ c.pushers = 0 ∧ c.deleters = 0
  | some n =>
    c.linked + c.winners + c.pushers + c.deleters ≤ 1 ∧
    (c.stamp : Int) + c.winStamp + n.inner = c.refs ∧
    (c.deleters = 1 → c.refs = 0) ∧
    (c.linked + c.winners + c.pushers = 1 → n.inner ≤ 0) ∧
    (c.linked + c.winners + c.pushers + c.deleters = 0 → 0 < c.refs)

variable [Fintype ι]

def counts (L : List (A × Nat)) (loc : ι → Local A V) (b : A) : Counts where
  linked := linkedAt L b
  stamp := stampAt L b
  refs := ∑ t, (loc t).ref b
  winners := ∑ t, (loc t).winner b
  winStamp := ∑ t, (loc t).winStamp b
  pushers := ∑ t, (loc t).pusher b
  deleters := ∑ t, (loc t).deleter b

theorem winStamp_eq_zero {L : List (A × Nat)} {loc : ι → Local A V} {b : A}
    (h : (counts L loc b).winners = 0) : (counts L loc b).winStamp = 0 := by
  simp only [counts, Finset.sum_eq_zero_iff, Finset.mem_univ, true_implies] at h ⊢
  intro t
  have := h t
  revert this
  cases loc t <;> simp +contextual [Local.winner, Local.winStamp]

/-- How the counts change when thread `t` moves from `l` to `x`, and what a count of zero
implies, before and after. -/
structure CountsStep (c c' : Counts) (b : A) (l x : Local A V) : Prop where
  refs : c'.refs + l.ref b = c.refs + x.ref b
  winners : c'.winners + l.winner b = c.winners + x.winner b
  winStamp : c'.winStamp + l.winStamp b = c.winStamp + x.winStamp b
  pushers : c'.pushers + l.pusher b = c.pushers + x.pusher b
  deleters : c'.deleters + l.deleter b = c.deleters + x.deleter b
  stamp_zero : c.linked = 0 → c.stamp = 0
  stamp_zero' : c'.linked = 0 → c'.stamp = 0
  winStamp_zero : c.winners = 0 → c.winStamp = 0
  winStamp_zero' : c'.winners = 0 → c'.winStamp = 0

theorem counts_update [DecidableEq ι] (L L' : List (A × Nat)) (loc : ι → Local A V) (t : ι)
    (x : Local A V) (b : A) :
    CountsStep (counts L loc b) (counts L' (Function.update loc t x) b) b (loc t) x :=
  ⟨Threads.sum_update_add _ _ _ _, Threads.sum_update_add _ _ _ _,
    Threads.sum_update_add _ _ _ _, Threads.sum_update_add _ _ _ _,
    Threads.sum_update_add _ _ _ _, stampAt_eq_zero, stampAt_eq_zero, winStamp_eq_zero,
    winStamp_eq_zero⟩

end Stack
