import ConcurrencyCourse.Lib.Progress
import ConcurrencyCourse.SharedPtr.LockFreeStack
import Mathlib.Data.Set.Card

/-!
# How far `LockFreeStack` on `AtomicSharedPtr` is lock-free

A thread that runs alone, from whatever state the others have left behind, ends its `Push` or `TryPop`: the stack is
obstruction-free. `Task.rank` is how far it is to the CAS that will succeed, and what is owed on the way, counter
updates and deletions, is bounded by what is on the list (`owed`) and the nodes that are linked (`linked`).
`IncrementCounter` is one step, as in `SharedPtr.opStep`: a thread that is alone goes round that loop at most twice.

It is not lock-free. `Load` and `CompareExchangeWeak` begin with `AcquireTransientRef`, which increments the stamp of
the word; the CAS of the word fails when the stamp has changed since the thread's own `AcquireTransientRef`
(shared_ptr.hpp 282-284). So two `TryPop`s that only look at `top_` make each other fail, forever.
`obstruction_free_not_lock_free` is the main theorem.
-/

namespace LockFreeStack

open Transition SharedPtr Function StampedPtr

variable {V ι : Type} [DecidableEq ι]

/-! ### What is to be done -/

/-- How far `AcquireTransientRef` is from its CAS. -/
def stale (m : Mem Unit) (curr : StampedPtr Nat) : ℕ := if m.reg () = curr.packed then 0 else 1

/-- Whether the register still holds what was read. -/
def near (m : Mem Unit) (h : Handle) (yes no : ℕ) : ℕ := if (m.reg ()).raw = h then yes else no

/-- How far an operation is from the end of the call, if nobody else goes on. -/
def rankOf (m : Mem Unit) : Pc Unit → ℕ
  | .idle | .exchange _ _ | .done .unit | .done (.copied _) => 0
  | .done (.cas true _) => 2
  | .casTry _ w exp _ => if m.reg () = (StampedPtr.mk exp w.stamp).packed then 3 else 21
  | .acqCas _ (.cas exp _) curr => near m exp 4 22 + stale m curr
  | .acqLoad _ (.cas exp _) => near m exp 6 24
  | .done (.loaded h) => near m h 8 26
  | .loadStore _ _ .value => 9
  | .loadEnd _ w .value => near m w.raw 10 27
  | .acqCas _ (.load .value) curr => 11 + stale m curr
  | .acqLoad _ (.load .value) => 13
  | .done (.cas false h) => near m h 15 26
  | .loadStore _ _ (.casFail _ _ _) => 16
  | .loadEnd _ w (.casFail _ _ _) => near m w.raw 17 27
  | .acqCas _ (.load (.casFail _ _ _)) curr => 18 + stale m curr
  | .acqLoad _ (.load (.casFail _ _ _)) => 20

/-- How far it is after `AcquireTransientRef` has returned `h`. -/
def acquiredRank (h : Handle) : Cont → ℕ
  | .cas exp _ => if h = exp then 3 else 15
  | .load .value => 10
  | .load (.casFail _ _ _) => 17

/-- How far it is in the loop of `AcquireTransientRef`, with the word as it is. -/
def loopRank (h : Handle) : Cont → ℕ
  | .cas exp _ => if h = exp then 4 else 22
  | .load .value => 11
  | .load (.casFail _ _ _) => 18

/-- How far a call is from its end. -/
def Task.rank (m : Mem Unit) (op : Op Unit) : Task V → ℕ
  | .idle | .pushed | .popped _ => 0
  | .pushEnd | .popEnd _ => 1
  | .popRetry => 14
  | .pushTry _ next => near m next 7 25
  | .popTry c => near m (some c) 7 25
  | .pushLoad _ | .popLoad | .pushCas _ | .popCas _ => rankOf m op.pc

/-- An update of a counter can bring about a deletion. -/
def cost : Instr → ℕ
  | .inc _ _ _ | .pub _ => 3
  | .del _ => 2

def owed (l : List Instr) : ℕ := (l.map cost).sum

/-- The nodes whose deletion takes another reference away. -/
def linked (next : Nat → Handle) : Set Nat := {k | next k ≠ none}

noncomputable def State.left (s : State V ι) (t : ι) : ℕ :=
  40 * (s.tasks t).rank s.mem (s.ops t) + owed (s.ops t).todo + 4 * (linked s.next).ncard

/-- The call is about to return. -/
def Task.over : Task V → Bool
  | .pushed | .popped _ => true
  | _ => false

def Task.busy : Task V → Bool
  | .idle | .pushed | .popped _ => false
  | _ => true

/-! ### What the threads can be at -/

def isLoad : Cont → Bool
  | .load .value => true
  | .load (.casFail _ _ _) | .cas _ _ => false

/-- Which operation it is: a `Load`, or else a `CompareExchangeWeak`. -/
def callee : Pc Unit → Option Bool
  | .acqLoad _ k | .acqCas _ k _ => some (isLoad k)
  | .loadEnd _ _ ret | .loadStore _ _ ret => some (isLoad (.load ret))
  | .done (.loaded _) => some true
  | .casTry _ _ _ _ | .done (.cas _ _) => some false
  | .idle | .exchange _ _ | .done .unit | .done (.copied _) => none

def ended : Pc Unit → Bool
  | .done _ => true
  | _ => false

/-- The operation is the one that the code has called. -/
def Task.Fits (pc : Pc Unit) : Task V → Prop
  | .idle | .pushed | .popped _ | .pushTry _ _ | .popTry _ => pc = .idle
  | .pushEnd | .popEnd _ | .popRetry => ended pc = true
  | .pushLoad _ | .popLoad => callee pc = some true
  | .pushCas _ | .popCas _ => callee pc = some false

structure Sane (s : State V ι) : Prop where
  fits : ∀ t, (s.tasks t).Fits (s.ops t).pc
  word : (s.mem.reg ()).packed = s.mem.reg ()
  finite : (linked s.next).Finite

section rank

variable {m m' : Mem Unit} {op op' : Op Unit} {pc : Pc Unit} {sp : Bool} {w : StampedPtr Nat} {k : Cont}

@[simp] theorem owed_nil : owed [] = 0 := rfl

@[simp] theorem owed_cons (i : Instr) (l : List Instr) : owed (i :: l) = cost i + owed l := rfl

@[simp] theorem owed_append (l l' : List Instr) : owed (l ++ l') = owed l + owed l' := by
  simp [owed]

theorem owed_incs (h : Handle) (ds dt : Int) : owed (incs h ds dt) ≤ 3 := by
  cases h <;> simp [incs, cost]

theorem owed_dropped (b : Nat) : owed (m.dropped b) ≤ 2 := by
  unfold Mem.dropped
  split <;> simp [cost]

theorem owed_pub (h : Handle) : owed (h.toList.map Instr.pub) ≤ 3 := by
  cases h <;> simp [cost]

theorem near_le (h : Handle) (yes no : ℕ) : near m h yes no = yes ∨ near m h yes no = no := by
  unfold near
  split <;> simp

theorem near_of_eq {h : Handle} (hh : (m.reg ()).raw = h) (yes no : ℕ) : near m h yes no = yes := if_pos hh

theorem stale_of_eq {curr : StampedPtr Nat} (hh : m.reg () = curr.packed) : stale m curr = 0 := if_pos hh

theorem packed_packed (w : StampedPtr Nat) : w.packed.packed = w.packed := by
  simp [packed]

@[simp] theorem reg_setReg (w : StampedPtr Nat) : (m.setReg () w).reg () = w.packed := by
  simp [Mem.setReg]

/-- What is owed after an acquisition, and how far it is from there: the word is what was acquired. -/
theorem acquired_rank (hw : m.reg () = w.packed) :
    owed (acquired () w k).todo ≤ 12 ∧ rankOf m (acquired () w k).pc ≤ acquiredRank w.raw k := by
  have hraw : (m.reg ()).raw = w.raw := by rw [hw, raw_packed]
  cases k with
  | load ret =>
    have h1 := owed_incs w.raw 1 0
    have h2 := owed_incs w.raw 0 (-1)
    refine ⟨by simp only [acquired, owed_append]; omega, ?_⟩
    cases ret <;> simp [acquired, acquiredRank, rankOf, near_of_eq hraw]
  | cas exp des =>
    have h1 := owed_incs w.raw 1 0
    have h2 := owed_incs exp (-1) 0
    have h3 := owed_incs w.raw 0 (-1)
    have h4 := owed_incs des (-1) 0
    by_cases hexp : w.raw = exp
    · subst hexp
      refine ⟨by simp [acquired], ?_⟩
      have hfresh : m.reg () = (StampedPtr.mk w.raw w.stamp).packed := hw
      simp [acquired, acquiredRank, rankOf, hfresh]
    · refine ⟨?_, ?_⟩
      · simp only [acquired, ne_eq, hexp, not_false_eq_true, if_true, owed_append]
        omega
      · simp [acquired, acquiredRank, hexp, rankOf, near_of_eq hraw]

theorem acquireLoop_rank (hp : (m.reg ()).packed = m.reg ()) :
    owed (acquireLoop () k (m.reg ())).todo ≤ 12 ∧
      rankOf m (acquireLoop () k (m.reg ())).pc ≤ loopRank (m.reg ()).raw k := by
  unfold acquireLoop
  split
  · obtain ⟨h1, h2⟩ := acquired_rank (k := k) hp.symm
    refine ⟨h1, h2.trans ?_⟩
    cases k with
    | load ret => cases ret <;> simp [acquiredRank, loopRank]
    | cas exp des =>
      simp only [acquiredRank, loopRank]
      split <;> omega
  · have hfresh := stale_of_eq hp.symm
    refine ⟨by simp, ?_⟩
    cases k with
    | load ret => cases ret <;> simp [loopRank, rankOf, hfresh]
    | cas exp des => simp [loopRank, rankOf, hfresh, near]

/-- An access to the register comes nearer to the end. -/
theorem pcStep_rank (hp : (m.reg ()).packed = m.reg ()) {b : Bool} (hpc : callee pc = some b)
    (hs : pcStep m false pc = some (m', op')) :
    rankOf m' op'.pc < rankOf m pc ∧ owed op'.todo ≤ 12 := by
  unfold pcStep at hs
  split at hs
  · cases hs
  · cases hs
  · next r k =>
    obtain ⟨rfl, rfl⟩ := Prod.mk.inj (Option.some.inj hs)
    obtain ⟨h1, h2⟩ := acquireLoop_rank (k := k) hp
    refine ⟨h2.trans_lt ?_, h1⟩
    cases k with
    | load ret => cases ret <;> simp [loopRank, rankOf]
    | cas exp des =>
      simp only [loopRank, rankOf, near]
      split <;> omega
  · next r k curr =>
    split at hs
    · next hcas =>
      obtain ⟨rfl, rfl⟩ := Prod.mk.inj (Option.some.inj hs)
      obtain ⟨h1, h2⟩ := acquired_rank (m := m.setReg () curr.incrementStamp) (k := k) (reg_setReg _)
      refine ⟨h2.trans_lt ?_, h1⟩
      have hraw : (m.reg ()).raw = curr.raw := by rw [hcas.2, raw_packed]
      have hfresh : stale m curr = 0 := stale_of_eq hcas.2
      cases k with
      | load ret => cases ret <;> simp only [acquiredRank, rankOf] <;> omega
      | cas exp des =>
        by_cases hexp : curr.raw = exp
        · simp [acquiredRank, rankOf, near, hraw, incrementStamp, hexp, hfresh]
        · simp [acquiredRank, rankOf, near, hraw, incrementStamp, hexp, hfresh]
    · next hcas =>
      obtain ⟨rfl, rfl⟩ := Prod.mk.inj (Option.some.inj hs)
      obtain ⟨h1, h2⟩ := acquireLoop_rank (k := k) hp
      have hstale : stale m curr = 1 := if_neg fun h => hcas ⟨rfl, h⟩
      refine ⟨h2.trans_lt ?_, h1⟩
      cases k with
      | load ret => cases ret <;> simp [loopRank, rankOf, hstale]
      | cas exp des =>
        simp only [loopRank, rankOf, near, hstale]
        split <;> omega
  · next r w ret =>
    obtain ⟨rfl, rfl⟩ := Prod.mk.inj (Option.some.inj hs)
    have hinc := owed_incs w.raw 0 limit
    split
    · refine ⟨?_, by simp only; omega⟩
      cases ret with
      | value => rcases near_le (m := m) w.raw 10 27 with h | h <;> simp [rankOf, h]
      | casFail exp old des => rcases near_le (m := m) w.raw 17 27 with h | h <;> simp [rankOf, h]
    · cases ret with
      | value =>
        refine ⟨?_, by simp [loadRet]⟩
        simp only [loadRet, rankOf, near]
        split <;> omega
      | casFail exp old des =>
        have h1 := owed_incs exp (-1) 0
        have h2 := owed_incs old (-1) 0
        have h3 := owed_incs des (-1) 0
        refine ⟨?_, by simp only [loadRet, owed_append]; omega⟩
        simp only [loadRet, rankOf, near]
        split <;> omega
  · next r w ret =>
    obtain ⟨rfl, rfl⟩ := Prod.mk.inj (Option.some.inj hs)
    have hraw : ((m.setReg () w).reg ()).raw = w.raw := by rw [reg_setReg, raw_packed]
    cases ret with
    | value => exact ⟨by simp [loadRet, rankOf, near_of_eq hraw], by simp [loadRet]⟩
    | casFail exp old des =>
      have h1 := owed_incs exp (-1) 0
      have h2 := owed_incs old (-1) 0
      have h3 := owed_incs des (-1) 0
      exact ⟨by simp [loadRet, rankOf, near_of_eq hraw], by simp only [loadRet, owed_append]; omega⟩
  · simp [callee] at hpc
  · next r w exp des =>
    split at hs
    · next hcas =>
      obtain ⟨rfl, rfl⟩ := Prod.mk.inj (Option.some.inj hs)
      have h1 := owed_pub des
      have h2 := owed_incs exp (-1) ((w.stamp : Int) - 1)
      have h3 := owed_incs des (-1) 0
      exact ⟨by simp [rankOf, hcas.2], by simp only [owed_append]; omega⟩
    · next hcas =>
      obtain ⟨rfl, rfl⟩ := Prod.mk.inj (Option.some.inj hs)
      have hne : m.reg () ≠ (StampedPtr.mk exp w.stamp).packed := fun h => hcas ⟨rfl, h⟩
      have h1 := owed_incs w.raw 1 0
      have h2 := owed_incs w.raw 0 (-1)
      exact ⟨by simp [rankOf, hne], by simp only [owed_append]; omega⟩

theorem pcStep_packed (hp : (m.reg ()).packed = m.reg ()) (hs : pcStep m sp pc = some (m', op')) :
    (m'.reg ()).packed = m'.reg () := by
  have hset : ∀ w : StampedPtr Nat, ((m.setReg () w).reg ()).packed = (m.setReg () w).reg () := by
    intro w
    rw [reg_setReg, packed_packed]
  unfold pcStep at hs
  split at hs
  · cases hs
  · cases hs
  · obtain ⟨rfl, -⟩ := Prod.mk.inj (Option.some.inj hs)
    exact hp
  · split at hs <;> obtain ⟨rfl, -⟩ := Prod.mk.inj (Option.some.inj hs)
    · exact hset _
    · exact hp
  · obtain ⟨rfl, -⟩ := Prod.mk.inj (Option.some.inj hs)
    exact hp
  · obtain ⟨rfl, -⟩ := Prod.mk.inj (Option.some.inj hs)
    exact hset _
  · obtain ⟨rfl, -⟩ := Prod.mk.inj (Option.some.inj hs)
    exact hset _
  · split at hs <;> obtain ⟨rfl, -⟩ := Prod.mk.inj (Option.some.inj hs)
    · exact hset _
    · exact hp

theorem rank_congr {task : Task V} (h : m'.reg () = m.reg ()) (hpc : op'.pc = op.pc) :
    task.rank m' op' = task.rank m op := by
  cases task <;> simp only [Task.rank, rankOf, near, stale, h, hpc]

theorem callee_acquired : callee (acquired () w k).pc = some (isLoad k) := by
  cases k with
  | load ret => rfl
  | cas exp des => by_cases h : w.raw = exp <;> simp [acquired, h, callee, isLoad]

theorem callee_acquireLoop : callee (acquireLoop () k w).pc = some (isLoad k) := by
  unfold acquireLoop
  split
  · exact callee_acquired
  · rfl

theorem callee_loadRet (h : Handle) (ret : Ret) : callee (loadRet h ret : Op Unit).pc = some (isLoad (.load ret)) := by
  cases ret <;> rfl

theorem pcStep_callee {b : Bool} (hpc : callee pc = some b) (hs : pcStep m sp pc = some (m', op')) :
    callee op'.pc = some b := by
  rw [← hpc]
  unfold pcStep at hs
  split at hs
  · cases hs
  · cases hs
  · obtain ⟨-, rfl⟩ := Prod.mk.inj (Option.some.inj hs)
    exact callee_acquireLoop
  · split at hs <;> obtain ⟨-, rfl⟩ := Prod.mk.inj (Option.some.inj hs)
    · exact callee_acquired
    · exact callee_acquireLoop
  · obtain ⟨-, rfl⟩ := Prod.mk.inj (Option.some.inj hs)
    split
    · rfl
    · exact callee_loadRet _ _
  · obtain ⟨-, rfl⟩ := Prod.mk.inj (Option.some.inj hs)
    exact callee_loadRet _ _
  · cases hpc
  · split at hs <;> obtain ⟨-, rfl⟩ := Prod.mk.inj (Option.some.inj hs) <;> rfl

end rank

section linked

variable {next : Nat → Handle} {n b : Nat} {h : Handle}

theorem linked_clear : linked (update next b none) = linked next \ {b} := by
  ext k
  by_cases hk : k = b
  · simp [linked, hk]
  · simp [linked, hk]

theorem linked_subset : linked (update next n h) ⊆ insert n (linked next) := by
  intro k hk
  by_cases hkn : k = n
  · exact .inl hkn
  · right
    simpa [linked, hkn] using hk

theorem ncard_linked (hf : (linked next).Finite) : (linked (update next n h)).ncard ≤ (linked next).ncard + 1 :=
  (Set.ncard_le_ncard linked_subset (hf.insert n)).trans (Set.ncard_insert_le n _)

/-- The deletion of a node: what it owes for its `next` is paid with the link. -/
theorem owed_del (hf : (linked next).Finite) : owed (incs (next b) (-1) 0) + 4 * (linked (update next b none)).ncard <
    cost (.del b) + 4 * (linked next).ncard := by
  rw [linked_clear]
  by_cases hb : next b = none
  · have hmem : b ∉ linked next := by simp [linked, hb]
    rw [Set.sdiff_singleton_eq_self hmem]
    simp [hb, incs, cost]
  · have hlt := Set.ncard_sdiff_singleton_lt_of_mem (show b ∈ linked next from hb) hf
    have hle := owed_incs (next b) (-1) 0
    simp only [cost]
    omega

end linked

/-! ### One step -/

section step

variable {s s' : State V ι} {t : ι} {sp : Bool}

/-- A step of an operation: of its counter updates, or an access to the register. -/
inductive Went (s s' : State V ι) (t : ι) (sp : Bool) : Prop where
  | update (op : Op Unit) : s'.tasks = s.tasks → s'.ops = Function.update s.ops t op → op.pc = (s.ops t).pc →
      s'.mem.reg = s.mem.reg → (linked s'.next).Finite →
      owed op.todo + 4 * (linked s'.next).ncard < owed (s.ops t).todo + 4 * (linked s.next).ncard → Went s s' t sp
  | access (m : Mem Unit) (op : Op Unit) (pc : Pc Unit) : s'.tasks = s.tasks → s'.mem = m →
      s'.ops = Function.update s.ops t ⟨pc, op.todo⟩ → pcStep s.mem sp (s.ops t).pc = some (m, op) →
      (pc = op.pc ∨ ∃ e, op.pc = .done (.cas true e) ∧ pc = .done (.cas true none)) → (linked s'.next).Finite →
      (linked s'.next).ncard ≤ (linked s.next).ncard + 1 → Went s s' t sp
  | advance : s.advance t = some s' → Went s s' t sp

theorem after_count {x : Mem Unit × Op Unit} {i : Instr} {l : List Instr} (ht : (s.ops t).todo = i :: l)
    (hi : ∀ b, i ≠ .del b) : s.after t x = { s with mem := x.1, ops := Function.update s.ops t x.2 } := by
  unfold State.after
  split
  · simp_all
  · next heq =>
    rw [ht] at heq
    cases heq
    exact (hi _ rfl).elim
  · rfl

theorem after_del {x : Mem Unit × Op Unit} {b : Nat} {l : List Instr} (ht : (s.ops t).todo = .del b :: l) :
    s.after t x =
      { s with mem := x.1, ops := Function.update s.ops t x.2, next := Function.update s.next b none } := by
  unfold State.after
  split <;> simp_all

theorem went_of_step (hf : (linked s.next).Finite) (hs : step s (.go t sp) = some s') : Went s s' t sp := by
  simp only [step] at hs
  split at hs
  · exact .advance hs
  · obtain ⟨⟨m, op⟩, hop, rfl⟩ := Option.map_eq_some_iff.1 hs
    unfold opStep at hop
    split at hop
    · next ht =>
      unfold State.after
      split
      · next n exp h1 h2 h3 =>
        exact .access m op _ rfl rfl rfl hop (.inr ⟨exp, h3, rfl⟩) ((hf.insert n).subset linked_subset)
          (ncard_linked hf)
      · simp_all
      · exact .access m op op.pc rfl rfl rfl hop (.inl rfl) hf (Nat.le_succ _)
    · next b ds dt l ht =>
      obtain ⟨rfl, rfl⟩ := Prod.mk.inj (Option.some.inj hop)
      rw [after_count ht (by simp)]
      have hle := owed_dropped (m := s.mem.count b ds dt) b
      refine .update _ rfl rfl rfl rfl hf ?_
      simp only [ht, owed_append, owed_cons, cost]
      omega
    · next b l ht =>
      obtain ⟨rfl, rfl⟩ := Prod.mk.inj (Option.some.inj hop)
      rw [after_count ht (by simp)]
      have hle := owed_dropped (m := s.mem.count b 1 0) b
      refine .update _ rfl rfl rfl rfl hf ?_
      simp only [ht, owed_append, owed_cons, cost]
      omega
    · next b l ht =>
      obtain ⟨rfl, rfl⟩ := Prod.mk.inj (Option.some.inj hop)
      rw [after_del ht]
      have hlt := owed_del (b := b) hf
      refine .update _ rfl rfl rfl rfl ((hf.insert b).subset linked_subset) ?_
      simp only [ht, owed_append, owed_cons]
      omega

/-- The code between two operations. -/
structure Advanced (s s' : State V ι) (t : ι) (task : Task V) (op : Op Unit) : Prop where
  tasks : s'.tasks = Function.update s.tasks t task
  ops : s'.ops = Function.update s.ops t op
  reg : s'.mem.reg = s.mem.reg
  next : s'.next = s.next
  fits : task.Fits op.pc
  owed : owed op.todo ≤ 3
  rank : task.rank s.mem op < (s.tasks t).rank s.mem (s.ops t)
  calls : task.busy = true ∨ task.over = true

theorem advanced_set {task : Task V} {op : Op Unit} (hfits : task.Fits op.pc) (howed : owed op.todo ≤ 3)
    (hcalls : task.busy = true ∨ task.over = true) (hrank : task.rank s.mem op < (s.tasks t).rank s.mem (s.ops t)) :
    Advanced s (s.set t task op) t task op :=
  ⟨rfl, rfl, rfl, rfl, hfits, howed, hrank, hcalls⟩

/-- `CompareExchangeWeak` is called with what was read last. -/
theorem advanced_callCas {task : Task V} {exp h : Handle} (hfits : ∀ pc, callee pc = some false → task.Fits pc)
    (hcalls : task.busy = true ∨ task.over = true) (htask : ∀ op, task.rank s.mem op = rankOf s.mem op.pc)
    (hrank : (s.tasks t).rank s.mem (s.ops t) = near s.mem exp 7 25) :
    ∃ op, Advanced s (s.callCas t task exp h) t task op := by
  have hlt : ∀ des l, task.rank s.mem ⟨.acqLoad () (.cas exp des), l⟩ < (s.tasks t).rank s.mem (s.ops t) := by
    intro des l
    rw [htask, hrank]
    simp only [rankOf, near]
    split <;> omega
  cases h with
  | none => exact ⟨_, advanced_set (hfits _ rfl) (by simp [Op.compareExchangeWeak]) hcalls (hlt _ _)⟩
  | some b =>
    have hle := owed_dropped (m := s.mem.count b 1 0) b
    exact ⟨_, rfl, rfl, rfl, rfl, hfits _ rfl, by simp only; omega, hlt _ _, hcalls⟩

theorem advance_spec (hs : s.advance t = some s') : ∃ task op, Advanced s s' t task op := by
  have hinc : ∀ b : Nat, owed (Op.reset b : Op Unit).todo ≤ 3 := by simp [Op.reset, cost]
  unfold State.advance at hs
  split at hs
  · next n h htask hpc =>
    obtain rfl := Option.some.inj hs
    refine ⟨_, _, advanced_set rfl (by simp [Op.idle]) (.inl rfl) ?_⟩
    simp only [htask, Task.rank, hpc, rankOf, near]
    split <;> omega
  · next n exp htask =>
    obtain rfl := Option.some.inj hs
    exact ⟨_, advanced_callCas (fun _ h => h) (.inl rfl) (fun _ => rfl) (by simp [htask, Task.rank])⟩
  · next n e htask hpc =>
    obtain rfl := Option.some.inj hs
    refine ⟨_, _, advanced_set rfl (hinc n) (.inl rfl) ?_⟩
    simp [htask, Task.rank, hpc, rankOf]
  · next n exp htask hpc =>
    obtain rfl := Option.some.inj hs
    refine ⟨_, _, advanced_set rfl (by simp [Op.idle]) (.inl rfl) ?_⟩
    simp only [htask, Task.rank, hpc, rankOf, near]
    split <;> omega
  · next htask hpc =>
    obtain rfl := Option.some.inj hs
    refine ⟨_, _, advanced_set rfl (by simp [Op.idle]) (.inr rfl) ?_⟩
    simp [htask, Task.rank]
  · next htask hpc =>
    obtain rfl := Option.some.inj hs
    refine ⟨_, _, advanced_set rfl (by simp [Op.idle]) (.inr rfl) ?_⟩
    rcases near_le (m := s.mem) none 8 26 with h | h <;> simp [htask, Task.rank, hpc, rankOf, h]
  · next c htask hpc =>
    obtain rfl := Option.some.inj hs
    refine ⟨_, _, advanced_set rfl (by simp [Op.idle]) (.inl rfl) ?_⟩
    simp only [htask, Task.rank, hpc, rankOf, near]
    split <;> omega
  · next c htask =>
    obtain rfl := Option.some.inj hs
    exact ⟨_, advanced_callCas (fun _ h => h) (.inl rfl) (fun _ => rfl) (by simp [htask, Task.rank])⟩
  · next c e htask hpc =>
    obtain rfl := Option.some.inj hs
    refine ⟨_, _, advanced_set rfl (hinc c) (.inl rfl) ?_⟩
    simp [htask, Task.rank, hpc, rankOf]
  · next c htask hpc =>
    obtain rfl := Option.some.inj hs
    refine ⟨_, _, advanced_set rfl (by simp [Op.load]) (.inl rfl) ?_⟩
    rcases near_le (m := s.mem) none 15 26 with h | h <;> simp [htask, Task.rank, hpc, rankOf, h, Op.load]
  · next c e htask hpc =>
    obtain rfl := Option.some.inj hs
    refine ⟨_, _, advanced_set rfl (hinc e) (.inl rfl) ?_⟩
    rcases near_le (m := s.mem) (some e) 15 26 with h | h <;> simp [htask, Task.rank, hpc, rankOf, h]
  · next htask hpc =>
    obtain rfl := Option.some.inj hs
    refine ⟨_, _, advanced_set rfl (by simp [Op.load]) (.inl rfl) ?_⟩
    simp [htask, Task.rank, rankOf, Op.load]
  · next v htask hpc =>
    obtain rfl := Option.some.inj hs
    refine ⟨_, _, advanced_set rfl (by simp [Op.idle]) (.inr rfl) ?_⟩
    simp [htask, Task.rank]
  · cases hs

theorem fits_update {task : Task V} {op : Op Unit} (hi : ∀ u, (s.tasks u).Fits (s.ops u).pc) (hfits : task.Fits op.pc)
    (u : ι) : (Function.update s.tasks t task u).Fits (Function.update s.ops t op u).pc := by
  by_cases hu : u = t
  · subst hu
    simpa using hfits
  · simpa [hu] using hi u

/-- A step of the operation keeps it the one that was called. -/
theorem Task.Fits.access {task : Task V} {m m' : Mem Unit} {op : Op Unit} {pc pc' : Pc Unit} (hfits : task.Fits pc)
    (hs : pcStep m sp pc = some (m', op))
    (hpc : pc' = op.pc ∨ ∃ e, op.pc = .done (.cas true e) ∧ pc' = .done (.cas true none)) :
    task.Fits pc' ∧ (∃ b, callee pc = some b) ∧ ∀ m op, task.rank m op = rankOf m op.pc := by
  have hcallee : ∀ b, callee pc = some b → callee pc' = some b := by
    intro b hb
    have hop := pcStep_callee hb hs
    rcases hpc with rfl | ⟨e, he, rfl⟩
    · exact hop
    · rw [he] at hop
      exact hop
  have hidle : pc ≠ .idle := by
    rintro rfl
    cases hs
  have hended : ended pc = false := by
    cases pc <;> first | rfl | cases hs
  cases task with
  | idle | pushed | popped | pushTry | popTry => exact absurd hfits hidle
  | pushEnd | popEnd | popRetry => simp [Task.Fits, hended] at hfits
  | pushLoad | popLoad => exact ⟨hcallee _ hfits, ⟨_, hfits⟩, fun _ _ => rfl⟩
  | pushCas | popCas => exact ⟨hcallee _ hfits, ⟨_, hfits⟩, fun _ _ => rfl⟩

theorem Sane.went (hi : Sane s) (hw : Went s s' t sp) : Sane s' := by
  obtain ⟨hfits, hword, hlinked⟩ := hi
  cases hw with
  | update op htasks hops hpc hreg hfin howed =>
    refine ⟨fun u => ?_, by rw [hreg]; exact hword, hfin⟩
    rw [htasks, hops]
    by_cases hu : u = t
    · subst hu
      simpa [hpc] using hfits u
    · simpa [hu] using hfits u
  | access m op pc htasks hmem hops hs hpc hfin hle =>
    refine ⟨fun u => ?_, by rw [hmem]; exact pcStep_packed hword hs, hfin⟩
    rw [htasks, hops]
    by_cases hu : u = t
    · subst hu
      simpa using ((hfits u).access hs hpc).1
    · simpa [hu] using hfits u
  | advance hadv =>
    obtain ⟨task, op, ha⟩ := advance_spec hadv
    refine ⟨fun u => ?_, by rw [ha.reg]; exact hword, by rw [ha.next]; exact hlinked⟩
    rw [ha.tasks, ha.ops]
    exact fits_update hfits ha.fits u

theorem Sane.step {a : Act V ι} (hi : Sane s) (hs : LockFreeStack.step s a = some s') : Sane s' := by
  cases a with
  | push u v =>
    simp only [LockFreeStack.step] at hs
    split at hs
    · obtain rfl := Option.some.inj hs
      exact ⟨fits_update hi.fits rfl, hi.word, hi.finite⟩
    · cases hs
  | tryPop u =>
    simp only [LockFreeStack.step] at hs
    split at hs
    · obtain rfl := Option.some.inj hs
      exact ⟨fits_update hi.fits rfl, hi.word, hi.finite⟩
    · cases hs
  | go u sp => exact hi.went (went_of_step hi.finite hs)
  | ret u =>
    simp only [LockFreeStack.step] at hs
    split at hs
    · obtain rfl := Option.some.inj hs
      exact ⟨fits_update hi.fits rfl, hi.word, hi.finite⟩
    · obtain rfl := Option.some.inj hs
      exact ⟨fits_update hi.fits rfl, hi.word, hi.finite⟩
    · cases hs

omit [DecidableEq ι] in
theorem Sane.init [Inhabited V] : Sane (init : State V ι) :=
  ⟨fun _ => rfl, rfl, by simp [linked, LockFreeStack.init]⟩

/-- A step of a thread that is alone brings it nearer to the end of its call. -/
theorem Sane.left_lt (hi : Sane s) (hs : LockFreeStack.step s (.go t false) = some s') : s'.left t < s.left t := by
  unfold State.left
  cases went_of_step hi.finite hs with
  | update op htasks hops hpc hreg hfin howed =>
    have hrank : (s.tasks t).rank s'.mem op = (s.tasks t).rank s.mem (s.ops t) := rank_congr (by rw [hreg]) hpc
    rw [htasks, hops, update_self, hrank]
    omega
  | access m op pc htasks hmem hops hpcs hpc hfin hle =>
    obtain ⟨-, ⟨b, hb⟩, hrank⟩ := (hi.fits t).access hpcs hpc
    obtain ⟨hlt, howed⟩ := pcStep_rank hi.word hb hpcs
    have heq : rankOf m pc = rankOf m op.pc := by
      rcases hpc with rfl | ⟨e, he, rfl⟩
      · rfl
      · rw [he]
        rfl
    rw [htasks, hops, update_self, hmem, hrank, hrank, heq]
    simp only
    omega
  | advance hadv =>
    obtain ⟨task, op, ha⟩ := advance_spec hadv
    have hlt := ha.rank
    have howed := ha.owed
    have hrank : task.rank s'.mem op = task.rank s.mem op := rank_congr (by rw [ha.reg]) rfl
    rw [ha.tasks, ha.ops, update_self, update_self, ha.next, hrank]
    omega

theorem quiet_pc {op : Op Unit} (hq : Quiet op = true) : op.pc = .idle ∨ ∃ res, op.pc = .done res := by
  unfold Quiet at hq
  split at hq
  · next h => exact .inl h
  · next res _ h => exact .inr ⟨res, h⟩
  · cases hq

theorem opStep_isSome {next : Nat → Handle} {m : Mem Unit} {op : Op Unit} (hq : ¬ Quiet op = true) :
    (opStep next m sp op).isSome = true := by
  obtain ⟨pc, todo⟩ := op
  cases todo with
  | nil =>
    cases pc <;> simp [Quiet] at hq
    all_goals simp only [opStep, pcStep]
    case acqCas => split <;> rfl
    case casTry => split <;> rfl
    all_goals rfl
  | cons i l => cases i <;> rfl

theorem advance_isSome (hfits : (s.tasks t).Fits (s.ops t).pc) (hq : Quiet (s.ops t) = true)
    (hbusy : (s.tasks t).busy = true) : (s.advance t).isSome = true := by
  unfold State.advance
  rcases quiet_pc hq with hpc | ⟨res, hpc⟩ <;> rw [hpc] at hfits ⊢
  · cases htask : s.tasks t <;> simp_all [Task.Fits, Task.busy, callee, ended]
  · cases htask : s.tasks t with
    | idle | pushed | popped =>
      rw [htask] at hbusy
      cases hbusy
    | pushTry | popTry | pushEnd | popEnd | popRetry => rfl
    | pushLoad =>
      rw [htask] at hfits
      cases res <;> first | rfl | cases hfits
    | popLoad =>
      rw [htask] at hfits
      cases res with
      | loaded h => cases h <;> rfl
      | _ => cases hfits
    | pushCas =>
      rw [htask] at hfits
      cases res with
      | cas success e => cases success <;> rfl
      | _ => cases hfits
    | popCas =>
      rw [htask] at hfits
      cases res with
      | cas success e => cases success <;> cases e <;> rfl
      | _ => cases hfits

/-- Whoever is in a call can go on. -/
theorem Sane.enabled (hi : Sane s) (hbusy : (s.tasks t).busy = true) :
    (LockFreeStack.step s (.go t sp)).isSome = true := by
  simp only [LockFreeStack.step]
  by_cases hq : Quiet (s.ops t) = true
  · rw [if_pos hq]
    exact advance_isSome (hi.fits t) hq hbusy
  · rw [if_neg hq, Option.isSome_map]
    exact opStep_isSome hq

theorem busy_or_over (hi : Sane s) (hbusy : (s.tasks t).busy = true) (hs : LockFreeStack.step s (.go t sp) = some s') :
    (s'.tasks t).busy = true ∨ (s'.tasks t).over = true := by
  cases went_of_step hi.finite hs with
  | update op htasks => exact .inl (by rw [htasks]; exact hbusy)
  | access m op pc htasks => exact .inl (by rw [htasks]; exact hbusy)
  | advance hadv =>
    obtain ⟨task, op, ha⟩ := advance_spec hadv
    rw [ha.tasks, update_self]
    exact ha.calls

/-- Alone, from any state. -/
theorem Sane.ends_alone [Inhabited V] (hi : Sane s) (hbusy : (s.tasks t).busy = true) :
    ∃ n s', exec (system V ι) noCheck s (List.replicate n (.go t false)) = some s' ∧ (s'.tasks t).over = true := by
  induction hn : s.left t using Nat.strongRecOn generalizing s with
  | ind n ih =>
    have hsome : (LockFreeStack.step s (.go t false)).isSome = true := hi.enabled hbusy
    obtain ⟨s₁, hs₁⟩ := Option.isSome_iff_exists.1 hsome
    have hexec : ∀ as, exec (system V ι) noCheck s (.go t false :: as) = exec (system V ι) noCheck s₁ as :=
      fun as => exec_step rfl hs₁
    rcases busy_or_over hi hbusy hs₁ with hbusy₁ | hover
    · obtain ⟨k, s', hs', hover⟩ := ih _ (hn ▸ hi.left_lt hs₁) (hi.step hs₁) hbusy₁ rfl
      exact ⟨k + 1, s', by rw [List.replicate_succ, hexec, hs'], hover⟩
    · exact ⟨1, s₁, by rw [List.replicate_one, hexec, exec_nil], hover⟩

end step

/-! ### Two `TryPop`s that make each other fail -/

/-- A step of one of the threads, not a failure of the environment, with which no call ends. -/
def useless (threads : ι → Bool) (s : State V ι) : Act V ι → Bool
  | .go t false => threads t && (step s (.go t false)).any fun s' => !(s'.tasks t).over
  | _ => false

/-- Thread `i` is at `x`, thread `j` at `y`; the word is node `b`, the last one, with the stamp `n`. -/
structure At (threads : ι → Bool) (s : State V ι) (i j : ι) (b n : ℕ) (c : ℤ) (x y : Task V × Op Unit) : Prop where
  move : threads i = true ∧ threads j = true
  word : s.mem.reg () = ⟨some b, n⟩
  strong : s.mem.strong b = c
  next : s.next b = none
  mine : s.tasks i = x.1 ∧ s.ops i = x.2
  other : s.tasks j = y.1 ∧ s.ops j = y.2

section round

variable [Inhabited V] {threads : ι → Bool} {s : State V ι} {i j : ι} {b n n' : ℕ} {c c' : ℤ}
  {x y : Task V × Op Unit} {task : Task V} {op : Op Unit} {pc : Pc Unit} {l : List Instr}

omit [Inhabited V] [DecidableEq ι] in
theorem At.swap (h : At threads s i j b n c x y) : At threads s j i b n c y x :=
  ⟨h.move.symm, h.word, h.strong, h.next, h.other, h.mine⟩

omit [Inhabited V] in
theorem useless_of_step {s' : State V ι} (hi : threads i = true) (hs : step s (.go i false) = some s')
    (hover : (s'.tasks i).over = false) : useless threads s (.go i false) = true := by
  simp [useless, hi, hs, hover]

/-- A step of the operation of thread `i`. -/
theorem At.go {m : Mem Unit} {op' : Op Unit} (h : At threads s i j b n c (task, op) y) (hij : i ≠ j)
    (hover : task.over = false) (hop : opStep s.next s.mem false op = some (m, op')) (hq : Quiet op = false)
    (hdel : ∀ b l, op.todo ≠ .del b :: l) (hcas : ∀ e, op'.pc ≠ .done (.cas true e))
    (hword : m.reg () = ⟨some b, n'⟩) (hstrong : m.strong b = c') :
    Leads (system V ι) (useless threads) s fun s' => At threads s' i j b n' c' (task, op') y := by
  obtain ⟨htask, hi⟩ := h.mine
  have hafter : s.after i (m, op') = { s with mem := m, ops := Function.update s.ops i op' } := by
    unfold State.after
    split
    · next hpc => exact absurd hpc (hcas _)
    · next ht =>
      rw [hi] at ht
      exact absurd ht (hdel _ _)
    · rfl
  have hs : step s (.go i false) = some { s with mem := m, ops := Function.update s.ops i op' } := by
    simp only [step, hi, hq, hop, Option.map_some, hafter]
    rfl
  refine .one (useless_of_step h.move.1 hs (by rw [htask]; exact hover)) hs
    ⟨h.move, hword, hstrong, h.next, ⟨htask, by simp⟩, ?_⟩
  simpa [hij.symm] using h.other

/-- A step of the code of thread `i`. -/
theorem At.advance {task' : Task V} {op' : Op Unit} (h : At threads s i j b n c (task, op) y) (hij : i ≠ j)
    (hq : Quiet op = true) (hadv : s.advance i = some (s.set i task' op')) (hover : task'.over = false) :
    Leads (system V ι) (useless threads) s fun s' => At threads s' i j b n c (task', op') y := by
  have hs : step s (.go i false) = some (s.set i task' op') := by
    simp only [step, h.mine.2, hq, hadv]
    rfl
  refine .one (useless_of_step h.move.1 hs ?_) hs ⟨h.move, h.word, h.strong, h.next, ?_, ?_⟩
  · simpa [State.set] using hover
  · simp [State.set]
  · simpa [State.set, hij.symm] using h.other

theorem At.inc {ds dt : ℤ} (h : At threads s i j b n c (task, ⟨pc, .inc b ds dt :: l⟩) y) (hij : i ≠ j)
    (hover : task.over = false) (hcas : ∀ e, pc ≠ .done (.cas true e)) (hc : c + ds ≠ 0) :
    Leads (system V ι) (useless threads) s fun s' => At threads s' i j b n (c + ds) (task, ⟨pc, l⟩) y := by
  have hstrong : (s.mem.count b ds dt).strong b = c + ds := by simp [Mem.count, h.strong]
  have hdropped : (s.mem.count b ds dt).dropped b = [] := by simp [Mem.dropped, hstrong, hc]
  refine h.go (m := s.mem.count b ds dt) hij hover ?_ rfl (by simp) hcas h.word hstrong
  simp [opStep, hdropped]

/-- `AcquireTransientRef`, with nobody in between. -/
theorem At.acquire {k : Cont} (h : At threads s i j b n c (task, ⟨.acqLoad () k, []⟩) y) (hij : i ≠ j)
    (hover : task.over = false) (hn : n < maxStamp) :
    Leads (system V ι) (useless threads) s fun s' =>
      At threads s' i j b (n + 1) c (task, acquired () ⟨some b, n + 1⟩ k) y := by
  have hload : opStep s.next s.mem false ⟨.acqLoad () k, []⟩ = some (s.mem, ⟨.acqCas () k ⟨some b, n⟩, []⟩) := by
    simp [opStep, pcStep, acquireLoop, h.word]
  refine (h.go hij hover hload rfl (by simp) (by simp) h.word h.strong).trans fun s₁ h₁ => ?_
  have hpacked : (StampedPtr.mk (some b) n).packed = ⟨some b, n⟩ := packed_of_le hn.le
  have hcas : opStep s₁.next s₁.mem false ⟨.acqCas () k ⟨some b, n⟩, []⟩ =
      some (s₁.mem.setReg () ⟨some b, n + 1⟩, acquired () ⟨some b, n + 1⟩ k) := by
    simp [opStep, pcStep, h₁.word, hpacked, incrementStamp]
  have hword : (s₁.mem.setReg () ⟨some b, n + 1⟩).reg () = ⟨some b, n + 1⟩ := by
    rw [reg_setReg]
    exact packed_of_le hn
  refine h₁.go hij hover hcas rfl (by simp) (fun e => ?_) hword h₁.strong
  cases k with
  | load ret => simp [acquired]
  | cas exp des => by_cases hexp : some b = exp <;> simp [acquired, hexp]

/-- The end of `Load`: the stamp may be above the limit. -/
theorem At.loadEnd {ret : Ret} (h : At threads s i j b n c (task, ⟨.loadEnd () ⟨some b, n⟩ ret, []⟩) y) (hij : i ≠ j)
    (hover : task.over = false) (hn : n ≤ maxStamp) (hc : c ≠ 0) :
    Leads (system V ι) (useless threads) s fun s' => ∃ n', n' ≤ limit ∧ (n' = n ∨ n' + limit = n) ∧
      At threads s' i j b n' c (task, loadRet (some b) ret) y := by
  have hret : ∀ e, (loadRet (some b) ret : Op Unit).pc ≠ .done (.cas true e) := by
    cases ret <;> simp [loadRet]
  by_cases hlimit : limit < n
  · have hend : opStep s.next s.mem false ⟨.loadEnd () ⟨some b, n⟩ ret, []⟩ =
        some (s.mem, ⟨.loadStore () ⟨some b, n - limit⟩ ret, incs (some b) 0 limit⟩) := by
      simp [opStep, pcStep, hlimit]
    refine (h.go hij hover hend rfl (by simp) (by simp) h.word h.strong).trans fun s₁ h₁ => ?_
    refine (h₁.inc hij hover (by simp) (by simpa using hc)).trans fun s₂ h₂ => ?_
    rw [add_zero] at h₂
    have hle : n - limit ≤ maxStamp := (Nat.sub_le ..).trans hn
    have hstore : opStep s₂.next s₂.mem false ⟨.loadStore () ⟨some b, n - limit⟩ ret, []⟩ =
        some (s₂.mem.setReg () ⟨some b, n - limit⟩, loadRet (some b) ret) := rfl
    have hword : (s₂.mem.setReg () ⟨some b, n - limit⟩).reg () = ⟨some b, n - limit⟩ := by
      rw [reg_setReg]
      exact packed_of_le hle
    obtain ⟨as, s₃, hne, hs₃, h₃⟩ := h₂.go hij hover hstore rfl (by simp) hret hword h₂.strong
    refine ⟨as, s₃, hne, hs₃, n - limit, ?_, .inr (by omega), h₃⟩
    simp only [limit, maxStamp] at hn ⊢
    omega
  · have hend : opStep s.next s.mem false ⟨.loadEnd () ⟨some b, n⟩ ret, []⟩ = some (s.mem, loadRet (some b) ret) := by
      simp [opStep, pcStep, hlimit]
    obtain ⟨as, s₁, hne, hs₁, h₁⟩ := h.go hij hover hend rfl (by simp) hret h.word h.strong
    exact ⟨as, s₁, hne, hs₁, n, by omega, .inl rfl, h₁⟩

theorem At.load {ret : Ret} (h : At threads s i j b n c (task, ⟨.acqLoad () (.load ret), []⟩) y) (hij : i ≠ j)
    (hover : task.over = false) (hn : n < maxStamp) (hc : 0 < c) :
    Leads (system V ι) (useless threads) s fun s' => ∃ n', n' ≤ limit ∧ (n' = n + 1 ∨ n' + limit = n + 1) ∧
      At threads s' i j b n' (c + 1) (task, loadRet (some b) ret) y := by
  refine (h.acquire hij hover hn).trans fun s₁ h₁ => ?_
  refine (h₁.inc hij hover (by simp) (by omega)).trans fun s₂ h₂ => ?_
  refine (h₂.inc hij hover (by simp) (by omega)).trans fun s₃ h₃ => ?_
  rw [add_zero] at h₃
  exact h₃.loadEnd hij hover hn (by omega)

/-- From the beginning of the loop to the CAS of the word. -/
theorem At.tries (h : At threads s i j b n c (.popLoad, .load ()) y) (hij : i ≠ j) (hn : n < maxStamp) (hc : 0 < c) :
    Leads (system V ι) (useless threads) s fun s' => ∃ n', n' ≤ limit ∧ (n' = n + 1 ∨ n' + limit = n + 1) ∧
      At threads s' i j b (n' + 1) (c + 1) (.popCas b, ⟨.casTry () ⟨some b, n' + 1⟩ (some b) none, []⟩) y := by
  refine (h.load hij rfl hn hc).trans ?_
  rintro s₁ ⟨n', hn', hn'n, h₁⟩
  have hload : s₁.advance i = some (s₁.set i (.popTry b) .idle) := by
    simp [State.advance, h₁.mine, loadRet]
  refine (h₁.advance hij rfl hload rfl).trans fun s₂ h₂ => ?_
  have htry : s₂.advance i = some (s₂.set i (.popCas b) (.compareExchangeWeak () (some b) none)) := by
    simp [State.advance, h₂.mine, h₂.next, State.callCas]
  refine (h₂.advance hij rfl htry rfl).trans fun s₃ h₃ => ?_
  have hlt : n' < maxStamp := by
    simp only [limit, maxStamp] at hn' ⊢
    omega
  obtain ⟨as, s₄, hne, hs₄, h₄⟩ := h₃.acquire hij rfl hlt
  exact ⟨as, s₄, hne, hs₄, n', hn', hn'n, by simpa [acquired] using h₄⟩

/-- The stamp has changed: back to the beginning of the loop. -/
theorem At.fails {k : ℕ} (h : At threads s i j b n c (.popCas b, ⟨.casTry () ⟨some b, k⟩ (some b) none, []⟩) y)
    (hij : i ≠ j) (hn : n < maxStamp) (hk : k ≤ maxStamp) (hnk : n ≠ k) (hc : 1 < c) :
    Leads (system V ι) (useless threads) s fun s' => ∃ n', n' ≤ limit ∧ (n' = n + 1 ∨ n' + limit = n + 1) ∧
      At threads s' i j b n' (c - 1) (.popLoad, .load ()) y := by
  have hpacked : (StampedPtr.mk (some b) k).packed = ⟨some b, k⟩ := packed_of_le hk
  have hcas : opStep s.next s.mem false ⟨.casTry () ⟨some b, k⟩ (some b) none, []⟩ =
      some (s.mem, ⟨.acqLoad () (.load (.casFail (some b) (some b) none)),
        incs (some b) 1 0 ++ incs (some b) 0 (-1)⟩) := by
    simp [opStep, pcStep, h.word, hpacked, hnk]
  refine (h.go hij rfl hcas rfl (by simp) (by simp) h.word h.strong).trans fun s₁ h₁ => ?_
  refine (h₁.inc hij rfl (by simp) (by omega)).trans fun s₂ h₂ => ?_
  refine (h₂.inc hij rfl (by simp) (by omega)).trans fun s₃ h₃ => ?_
  refine (h₃.load hij rfl hn (by omega)).trans ?_
  rintro s₄ ⟨n', hn', hn'n, h₄⟩
  refine (h₄.inc hij rfl (by simp) (by omega)).trans fun s₅ h₅ => ?_
  refine (h₅.inc hij rfl (by simp) (by omega)).trans fun s₆ h₆ => ?_
  have hfailed : s₆.advance i = some (s₆.set i .popRetry (.reset b)) := by
    simp [State.advance, h₆.mine]
  refine (h₆.advance hij rfl hfailed rfl).trans fun s₇ h₇ => ?_
  refine (h₇.inc hij rfl (by simp) (by omega)).trans fun s₈ h₈ => ?_
  have hretry : s₈.advance i = some (s₈.set i .popLoad (.load ())) := by
    simp [State.advance, h₈.mine]
  obtain ⟨as, s₉, hne, hs₉, h₉⟩ := h₈.advance hij rfl hretry rfl
  have hcount : c + 1 + 0 + 1 + -1 + -1 + -1 = c - 1 := by omega
  rw [hcount] at h₉
  exact ⟨as, s₉, hne, hs₉, n', hn', hn'n, h₉⟩

/-- Both at the beginning of the loop. -/
def Both (threads : ι → Bool) (i j : ι) (b : ℕ) (s : State V ι) : Prop :=
  ∃ n, n ≤ limit ∧ At threads s i j b n 1 (.popLoad, .load ()) (.popLoad, .load ())

/-- Each goes round its loop once. -/
theorem Both.round (hij : i ≠ j) (h : Both threads i j b s) :
    Leads (system V ι) (useless threads) s (Both threads i j b) := by
  obtain ⟨n, hn, h⟩ := h
  have hmax : limit + 2 < maxStamp := by decide
  refine (h.tries hij (by omega) (by omega)).trans ?_
  rintro s₁ ⟨n₁, hn₁, -, h₁⟩
  refine (h₁.swap.tries hij.symm (by omega) (by omega)).trans ?_
  rintro s₂ ⟨n₂, hn₂, hn₂n₁, h₂⟩
  refine (h₂.swap.fails hij (by omega) (by omega) (by simp only [limit] at *; omega) (by omega)).trans ?_
  rintro s₃ ⟨n₃, hn₃, hn₃n₂, h₃⟩
  obtain ⟨as, s₄, hne, hs₄, n₄, hn₄, -, h₄⟩ :=
    h₃.swap.fails hij.symm (by omega) (by omega) (by simp only [limit] at *; omega) (by omega)
  exact ⟨as, s₄, hne, hs₄, n₄, hn₄, h₄.swap⟩

/-- Thread `i` pushes the only node, and then both begin a `TryPop`. -/
def pushAndPop (i j : ι) : List (Act V ι) :=
  .push i default :: List.replicate 11 (.go i false) ++ [.ret i, .tryPop i, .tryPop j]

/-- Where that leads. -/
def popping (i j : ι) : State V ι :=
  { mem := { reg := update (fun _ => null) () ⟨some 0, 0⟩, strong := update (fun _ => 0) 0 1, transient := fun _ => 0,
             allocs := 1, deleted := [] }
    ops := update (update (fun _ => .idle) i (.load ())) j (.load ())
    tasks := update (update (fun _ => .idle) i .popLoad) j .popLoad
    next := fun _ => none
    value := fun _ => default }

theorem exec_pushAndPop (hij : i ≠ j) : exec (system V ι) noCheck init (pushAndPop i j) = some (popping i j) := by
  simp [pushAndPop, popping, List.replicate, exec_cons, exec_nil, noCheck, system, step, init, Quiet, State.set,
    Op.load, opStep, pcStep, acquireLoop, acquired, null, incs, limit, State.after, loadRet, State.advance, Op.idle,
    State.callCas, Mem.count, Mem.dropped, Mem.make, Mem.setReg, packed, Op.reset, hij.symm]

theorem both_popping (hij : i ≠ j) (hi : threads i = true) (hj : threads j = true) :
    Both threads i j 0 (popping i j : State V ι) :=
  ⟨0, Nat.zero_le _, ⟨hi, hj⟩, by simp [popping], by simp [popping], rfl, by simp [popping, hij], by simp [popping]⟩

end round

section main

variable [Inhabited V]

/-- A call has come to its end. -/
def ends (s : State V ι) : Act V ι → Prop
  | .go t sp => ∃ s', step s (.go t sp) = some s' ∧ (s'.tasks t).over = true
  | _ => False

/-- A weak CAS fails spuriously. -/
def fails (_ : State V ι) : Act V ι → Prop
  | .go _ sp => sp = true
  | _ => False

omit [Inhabited V] in
theorem not_ends_of_useless {threads : ι → Bool} {s : State V ι} {a : Act V ι} (h : useless threads s a = true) :
    (∃ t, threads t = true ∧ a = .go t false) ∧ ¬ ends s a := by
  unfold useless at h
  split at h
  · next t =>
    obtain ⟨ht, hs⟩ := (Bool.and_eq_true _ _).mp h
    refine ⟨⟨t, ht, rfl⟩, ?_⟩
    rintro ⟨s', hs', hover⟩
    simp [hs', hover] at hs
  · cases h

/-- In every state that can be reached, a thread in a call comes to its end when it goes on alone. But any two threads
can go on forever without a spurious failure, and no call ends. -/
theorem obstruction_free_not_lock_free :
    (∀ s : State V ι, Reach (system V ι) anyStep s → ∀ t, (s.tasks t).busy = true →
      ∃ n s', exec (system V ι) noCheck s (List.replicate n (.go t false)) = some s' ∧ (s'.tasks t).over = true) ∧
    ∀ i j : ι, i ≠ j → (∃ r : Infinite (system V ι), ∀ n,
      (r.act n = .go i false ∨ r.act n = .go j false) ∧ ¬ ends (r.state n) (r.act n)) ∧
      ¬ LockFree (system V ι) ends fails := by
  have hforever : ∀ i j : ι, i ≠ j → ∃ r : Infinite (system V ι), ∀ n,
      (r.act n = .go i false ∨ r.act n = .go j false) ∧ ¬ ends (r.state n) (r.act n) := by
    intro i j hij
    have hreach : Reach (system V ι) anyStep (popping i j) :=
      (Reach.init rfl).exec (fun _ _ _ => trivial) (exec_pushAndPop hij)
    let threads (t : ι) : Bool := t = i ∨ t = j
    have hboth : Both threads i j 0 (popping i j : State V ι) :=
      both_popping hij (decide_eq_true (.inl rfl)) (decide_eq_true (.inr rfl))
    obtain ⟨r, -, hr⟩ := Infinite.of_rounds (fun _ => Both.round hij) hreach hboth
    refine ⟨r, fun n => ?_⟩
    obtain ⟨⟨t, ht, hact⟩, hends⟩ := not_ends_of_useless (hr n)
    refine ⟨?_, hends⟩
    rw [hact]
    rcases of_decide_eq_true ht with rfl | rfl
    · exact .inl rfl
    · exact .inr rfl
  refine ⟨fun s r t hbusy => ?_, fun i j hij => ⟨hforever i j hij, fun hfree => ?_⟩⟩
  · have hi : Sane s := r.invariant (fun _ hs => hs ▸ Sane.init) fun _ _ _ hi _ hs => hi.step hs
    exact hi.ends_alone hbusy
  · obtain ⟨r, hr⟩ := hforever i j hij
    have hfails : ∀ m, ¬ fails (r.state m) (r.act m) := by
      intro m
      rcases (hr m).1 with hact | hact <;> rw [hact] <;> rintro ⟨⟩
    obtain ⟨n, -, hends⟩ := hfree r ⟨0, fun m _ => hfails m⟩ 0
    exact (hr n).2 hends

end main

end LockFreeStack
