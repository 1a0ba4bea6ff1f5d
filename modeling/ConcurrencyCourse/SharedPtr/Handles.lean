import ConcurrencyCourse.Lib.Transition
import ConcurrencyCourse.SharedPtr.Lifetime

/-!
# `AtomicSharedPtr` with any users: lifetime of the control blocks

Any number of threads, each with its own `SharedPtr` handles (`State.bag`), call `Load`, `Store` and
`CompareExchangeWeak` on any number of registers and copy, move and reset their handles. An
argument passed by value was copied or moved before the call, so a call takes handles out of
the bag, and its result goes back there.

`CompareExchangeWeak` publishes `desired` and counts the register's reference afterwards
(shared_ptr.hpp 284-287; `Store` does it the other way round). If `desired` was moved in, the
argument is the only counted reference, and a thread that takes the block out of the register in
between deletes it: `moved_desired_is_deleted`. `keeps_lifetime` is the converse.
-/

namespace SharedPtr

open Transition Function

structure State (ρ ι : Type) where
  mem : Mem ρ
  ops : ι → Op ρ
  bag : ι → List Nat

inductive Act (ρ ι : Type) where
  | makeShared (t : ι)
  | copy (t : ι) (b : Nat)
  | reset (t : ι) (b : Nat)
  /-- A handle of thread `t` is moved to thread `u`. -/
  | move (t u : ι) (b : Nat)
  | load (t : ι) (r : ρ)
  | store (t : ι) (r : ρ) (target : Handle)
  | compareExchangeWeak (t : ι) (r : ρ) (exp des : Handle)
  | go (t : ι) (spurious : Bool)
  /-- The call returns. -/
  | ret (t : ι)

variable {ρ ι : Type} [DecidableEq ρ] [DecidableEq ι]

/-- The bag without a handle that is passed on. -/
def takeHandle (h : Handle) (l : List Nat) : Option (List Nat) :=
  match h with
  | none => some l
  | some b => if b ∈ l then some (l.erase b) else none

/-- The handles that the caller gets. -/
def Res.handles : Res → List Nat
  | .unit => []
  | .loaded h | .cas _ h => h.toList
  | .copied b => [b, b]

def State.set (s : State ρ ι) (t : ι) (op : Op ρ) (bag : List Nat) : State ρ ι :=
  { s with ops := update s.ops t op, bag := update s.bag t bag }

/-- Thread `t` begins a call with the handles it passes on. -/
def State.call (s : State ρ ι) (t : ι) (op : Op ρ) (bag : Option (List Nat)) : Option (State ρ ι) :=
  match (s.ops t).pc with
  | .idle => bag.map (s.set t op)
  | _ => none

/-- No object holds a handle. -/
def noInner : Nat → Handle := fun _ => none

def step (s : State ρ ι) : Act ρ ι → Option (State ρ ι)
  | .makeShared t => match (s.ops t).pc with
    | .idle => some { s with mem := s.mem.make, bag := update s.bag t (s.mem.allocs :: s.bag t) }
    | _ => none
  | .copy t b => s.call t (.copy b) (takeHandle (some b) (s.bag t))
  | .reset t b => s.call t (.reset b) (takeHandle (some b) (s.bag t))
  | .move t u b => (takeHandle (some b) (s.bag t)).map fun l =>
    { s with bag := update (update s.bag t l) u (b :: update s.bag t l u) }
  | .load t r => s.call t (.load r) (some (s.bag t))
  | .store t r target => s.call t (.store r target) (takeHandle target (s.bag t))
  | .compareExchangeWeak t r exp des =>
    s.call t (.compareExchangeWeak r exp des) ((takeHandle exp (s.bag t)).bind (takeHandle des))
  | .go t spurious => (opStep noInner s.mem spurious (s.ops t)).map fun x =>
    { s with mem := x.1, ops := update s.ops t x.2 }
  | .ret t => match (s.ops t).pc, (s.ops t).todo with
    | .done res, [] => some (s.set t .idle (res.handles ++ s.bag t))
    | _, _ => none

def init : State ρ ι :=
  { mem := { reg := fun _ => .null, strong := fun _ => 0, transient := fun _ => 0, allocs := 0,
             deleted := [] }
    ops := fun _ => .idle, bag := fun _ => [] }

def system (ρ ι : Type) [DecidableEq ρ] [DecidableEq ι] : System (State ρ ι) (Act ρ ι) :=
  ⟨fun s => s = init, step⟩

/-- No stamp exceeds the limit. -/
def Limited (s : State ρ ι) : Act ρ ι → Prop
  | .go t _ => (s.ops t).Limited s.mem
  | _ => True

/-- No `IncrementCounter` brings the counters of a block to zero while some operation has published
the block and not counted it. -/
def KeepsPublished (s : State ρ ι) : Act ρ ι → Prop
  | .go t _ => ∀ i l b ds dt, (s.ops t).todo = i :: l → i.adds = some (b, ds, dt) →
      s.mem.strong b + ds = 0 → s.mem.transient b + dt = 0 → ∀ u, ¬ (s.ops u).publishing b
  | _ => True

/-- No step touches a deleted block, no block is deleted twice, and a block is only alive while
a handle, a register or an operation refers to it. -/
def Safe (s : State ρ ι) : Prop :=
  (∀ t b, (s.ops t).touches = some b → b ∉ s.mem.deleted) ∧
  s.mem.deleted.Nodup ∧
  ∀ b, b < s.mem.allocs → b ∉ s.mem.deleted →
    (∃ t, b ∈ s.bag t) ∨ (∃ r, (s.mem.reg r).raw = some b) ∨ ∃ t, (s.ops t).RefersTo b

/-! ## The bags -/

section bags

omit [DecidableEq ρ] [DecidableEq ι]

theorem takeHandle_count {h : Handle} {l l' : List Nat} (ht : takeHandle h l = some l') (b : Nat) :
    (l'.count b : Int) + is h b = l.count b := by
  cases h with
  | none =>
    simp only [takeHandle, Option.some.injEq] at ht
    rw [← ht, is_none, Int.add_zero]
  | some c =>
    simp only [takeHandle] at ht
    split at ht
    · rename_i hc
      simp only [Option.some.injEq] at ht
      subst ht
      by_cases hcb : c = b
      · subst hcb
        have := List.count_pos_iff.2 hc
        rw [List.count_erase_self, is_self]
        omega
      · rw [List.count_erase_of_ne (fun e => hcb e.symm), is_some_ne hcb, Int.add_zero]
    · cases ht

theorem res_handles (res : Res) (b : Nat) : (res.handles.count b : Int) = res.hold b := by
  have htl : ∀ h : Handle, (h.toList.count b : Int) = is h b := by
    intro h
    cases h with
    | none => simp
    | some c => by_cases hc : c = b <;> simp [is, hc]
  cases res with
  | unit => rfl
  | loaded h => exact htl h
  | copied c => by_cases hc : c = b <;> simp [Res.handles, Res.hold, is, hc]
  | cas s exp => exact htl exp

/-- What the threads have in their bags. -/
def bagExt [Fintype ι] (bag : ι → List Nat) (b : Nat) : Int := ∑ t, ((bag t).count b : Int)

variable [Fintype ι]

theorem bagExt_nonneg (bag : ι → List Nat) (b : Nat) : 0 ≤ bagExt bag b :=
  Finset.sum_nonneg fun _ _ => Int.natCast_nonneg _

theorem bagExt_update [DecidableEq ι] (bag : ι → List Nat) (t : ι) (l : List Nat) (b : Nat) :
    bagExt (update bag t l) b + (bag t).count b = bagExt bag b + l.count b :=
  Threads.sum_update_add (fun l : List Nat => (l.count b : Int)) bag t l

end bags

/-! ## The invariant -/

section inv

omit [DecidableEq ρ] [DecidableEq ι]

structure Inv [Fintype ρ] [Fintype ι] (s : State ρ ι) : Prop where
  life : Lifetime s.mem s.ops (bagExt s.bag)
  idle : ∀ t, (s.ops t).pc = .idle → (s.ops t).todo = []

variable [Fintype ρ] [Fintype ι] [DecidableEq ρ] [DecidableEq ι] {s s' : State ρ ι} {t : ι}

omit [DecidableEq ρ] [DecidableEq ι] in
theorem Inv.idle_owns (hi : Inv s) (hidle : (s.ops t).pc = .idle) (b : Nat) :
    (s.ops t).hold b = 0 ∧ (s.ops t).thold b = 0 ∧ (s.ops t).window b = 0 ∧ (s.ops t).dels b = 0 := by
  obtain ⟨h1, h2, h3, h4⟩ := owns_of_todo_nil (hi.idle t hidle) b
  rw [hidle] at h1 h2
  exact ⟨h1, h2, h3, h4⟩

omit [Fintype ρ] [Fintype ι] [DecidableEq ρ] in
theorem idle_update {ops : ι → Op ρ} (h : ∀ u, (ops u).pc = .idle → (ops u).todo = []) {op : Op ρ}
    (hop : op.pc = .idle → op.todo = []) (u : ι) :
    (update ops t op u).pc = .idle → (update ops t op u).todo = [] := by
  by_cases hu : u = t
  · subst hu; rw [update_self]; exact hop
  · rw [update_of_ne hu]; exact h u

omit [Fintype ρ] [Fintype ι] [DecidableEq ι] in
/-- A step does not end with `idle`. -/
theorem opStep_idle {m m' : Mem ρ} {op op' : Op ρ} {inner : Nat → Handle} {sp : Bool}
    (h : op.pc = .idle → op.todo = []) (hs : opStep inner m sp op = some (m', op')) :
    op'.pc = .idle → op'.todo = [] := by
  unfold opStep at hs
  split at hs
  · intro hidle
    cases hp : op.pc <;> rw [hp] at hs <;> simp only [pcStep, reduceCtorEq] at hs
    all_goals
      try split at hs
      all_goals
        simp only [Option.some.injEq, Prod.mk.injEq] at hs
        obtain ⟨-, rfl⟩ := hs
        revert hidle
        simp only [acquireLoop, acquired, loadRet]
        repeat' split
        all_goals exact fun h => absurd h (by simp)
  all_goals
    rename_i htodo
    simp only [Option.some.injEq, Prod.mk.injEq] at hs
    obtain ⟨-, rfl⟩ := hs
    intro hidle
    rw [h hidle] at htodo
    cases htodo

omit [DecidableEq ρ] in
/-- The beginning of a call. -/
theorem Inv.call (hi : Inv s) {op : Op ρ} {bag : Option (List Nat)} {g : Nat → Int}
    (hs : s.call t op bag = some s') (hpc : op.pc.Ok ∧ op.pc.Calm ∧ op.pc ≠ .idle) (hwf : op.WF)
    (hbag : ∀ l, bag = some l → ∀ b, (l.count b : Int) + g b = (s.bag t).count b)
    (hhold : ∀ b, op.hold b = g b)
    (hop : ∀ b, op.thold b = 0 ∧ op.window b = 0 ∧ op.dels b = 0) : Inv s' := by
  unfold State.call at hs
  split at hs
  · rename_i hidle
    obtain ⟨l, hl, rfl⟩ := Option.map_eq_some_iff.1 hs
    have howns := hi.idle_owns hidle
    refine ⟨hi.life.transfer ⟨hpc.1, hpc.2.1⟩ hwf (bagExt_nonneg _) (fun b => ?_) (fun b => ?_)
      (fun b => ?_) (fun b => ?_), idle_update hi.idle fun h => absurd h hpc.2.2⟩
    · have h1 := bagExt_update s.bag t l b
      have h2 := hbag l hl b
      rw [hhold, (howns b).1]
      simp only [State.set]
      omega
    · rw [(hop b).1, (howns b).2.1]
    · rw [(hop b).2.1, (howns b).2.2.1]
    · rw [(hop b).2.2, (howns b).2.2.2]
  · cases hs

theorem Inv.go (hi : Inv s) {sp : Bool} (hlim : (s.ops t).Limited s.mem)
    (hkeep : KeepsPublished s (.go t sp)) {x : Mem ρ × Op ρ}
    (hs : opStep noInner s.mem sp (s.ops t) = some x) :
    Inv ({ s with mem := x.1, ops := update s.ops t x.2 } : State ρ ι) := by
  obtain ⟨m', op'⟩ := x
  have hwin : ∀ b, (∀ u, ¬ (s.ops u).publishing b) → ∀ u, (s.ops u).window b = 0 :=
    fun b h u => window_eq_zero (h u)
  have hidle := opStep_idle (hi.idle t) hs
  unfold opStep at hs
  split at hs
  · rename_i htodo
    exact ⟨hi.life.access htodo hlim hs, idle_update hi.idle hidle⟩
  · rename_i b ds dt l htodo
    simp only [Option.some.injEq, Prod.mk.injEq] at hs
    obtain ⟨rfl, rfl⟩ := hs
    exact ⟨hi.life.count htodo rfl fun h1 h2 => hwin b (hkeep _ l b ds dt htodo rfl h1 h2),
      idle_update hi.idle hidle⟩
  · rename_i b l htodo
    simp only [Option.some.injEq, Prod.mk.injEq] at hs
    obtain ⟨rfl, rfl⟩ := hs
    exact ⟨hi.life.count htodo rfl fun h1 h2 => hwin b (hkeep _ l b 1 0 htodo rfl h1 h2),
      idle_update hi.idle hidle⟩
  · rename_i b l htodo
    simp only [Option.some.injEq, Prod.mk.injEq] at hs
    obtain ⟨rfl, rfl⟩ := hs
    exact ⟨hi.life.del htodo (n := none) (fun c => by simp) (bagExt_nonneg _),
      idle_update hi.idle hidle⟩

omit [DecidableEq ρ] in
theorem Inv.ret (hi : Inv s) {res : Res} (hpc : (s.ops t).pc = .done res)
    (htodo : (s.ops t).todo = []) : Inv (s.set t .idle (res.handles ++ s.bag t)) := by
  have howns := owns_of_todo_nil htodo
  refine ⟨hi.life.transfer ⟨trivial, trivial⟩ trivial (bagExt_nonneg _) (fun b => ?_) (fun b => ?_)
    (fun b => ?_) (fun b => ?_), idle_update hi.idle fun _ => rfl⟩
  · have h1 := bagExt_update s.bag t (res.handles ++ s.bag t) b
    have h2 := res_handles res b
    rw [(howns b).1, hpc]
    rw [List.count_append, Int.natCast_add] at h1
    have h3 : (Op.idle : Op ρ).hold b = 0 := rfl
    have h4 : (Pc.done res : Pc ρ).hold b = res.hold b := rfl
    simp only [State.set]
    omega
  · rw [(howns b).2.1, hpc]; rfl
  · rw [(howns b).2.2.1]; rfl
  · rw [(howns b).2.2.2]; rfl

omit [DecidableEq ρ] in
theorem Inv.move (hi : Inv s) {u : ι} {b : Nat} {l : List Nat}
    (hl : takeHandle (some b) (s.bag t) = some l) :
    Inv ({ s with bag := update (update s.bag t l) u (b :: update s.bag t l u) } : State ρ ι) := by
  have hext : bagExt (update (update s.bag t l) u (b :: update s.bag t l u)) = bagExt s.bag := by
    funext c
    have h1 := bagExt_update s.bag t l c
    have h2 := bagExt_update (update s.bag t l) u (b :: update s.bag t l u) c
    have h3 := takeHandle_count hl c
    rw [List.count_cons] at h2
    by_cases hb : b = c
    · subst hb
      simp only [beq_self_eq_true, if_true, Int.natCast_add, Int.natCast_one] at h2
      rw [is_self] at h3
      omega
    · rw [is_some_ne hb] at h3
      simp only [beq_iff_eq, hb, if_false, Nat.add_zero] at h2
      omega
  exact ⟨by rw [hext]; exact hi.life, hi.idle⟩

omit [DecidableEq ρ] in
theorem Inv.makeShared (hi : Inv s) :
    Inv ({ s with mem := s.mem.make, bag := update s.bag t (s.mem.allocs :: s.bag t) } : State ρ ι) := by
  refine ⟨hi.life.make fun c => ?_, hi.idle⟩
  change bagExt (update s.bag t (s.mem.allocs :: s.bag t)) c = _
  have h1 := bagExt_update s.bag t (s.mem.allocs :: s.bag t) c
  rw [List.count_cons] at h1
  by_cases hc : s.mem.allocs = c
  · subst hc
    simp only [beq_self_eq_true, if_true, Int.natCast_add, Int.natCast_one] at h1
    rw [is_self]; omega
  · rw [is_some_ne hc]
    simp only [beq_iff_eq, hc, if_false, Nat.add_zero] at h1
    omega

theorem inv_step {a : Act ρ ι} (hi : Inv s) (hlim : Limited s a) (hkeep : KeepsPublished s a)
    (hs : step s a = some s') : Inv s' := by
  cases a with
  | makeShared t =>
    simp only [step] at hs
    split at hs
    · obtain rfl := Option.some.inj hs
      exact hi.makeShared
    · cases hs
  | copy t b =>
    refine hi.call (g := is (some b)) hs ⟨trivial, trivial, by simp [Op.copy]⟩ (copy_wf b)
      (fun l hl c => takeHandle_count hl c) (fun c => ?_) fun c => ?_
    · have h : is (some b) c = if b = c then 1 else 0 := by simp [is]
      simp only [Op.hold, Op.copy, Pc.hold, Res.hold, dstrong, ← h]
      omega
    · simp [Op.thold, Op.window, Op.dels, Op.copy, Pc.thold, dtransient, window, dels]
  | reset t b =>
    refine hi.call (g := is (some b)) hs ⟨trivial, trivial, by simp [Op.reset]⟩ (reset_wf b)
      (fun l hl c => takeHandle_count hl c) (fun c => ?_) fun c => ?_
    · by_cases hbc : b = c <;> simp [Op.hold, Op.reset, Pc.hold, Res.hold, dstrong, is, hbc]
    · simp [Op.thold, Op.window, Op.dels, Op.reset, Pc.thold, dtransient, window, dels]
  | move t u b =>
    obtain ⟨l, hl, rfl⟩ := Option.map_eq_some_iff.1 hs
    exact hi.move hl
  | load t r =>
    refine hi.call (g := fun _ => 0) hs ⟨trivial, trivial, by simp [Op.load]⟩ trivial
      (fun l hl c => ?_) (fun c => ?_) fun c => ?_
    · simp only [Option.some.injEq] at hl
      rw [← hl, Int.add_zero]
    · simp [Op.hold, Op.load, Pc.hold, Cont.hold, Ret.hold, dstrong]
    · simp [Op.thold, Op.window, Op.dels, Op.load, Pc.thold, dtransient, window, dels]
  | store t r target =>
    refine hi.call (g := is target) hs ⟨trivial, trivial, by simp [Op.store]⟩ (store_wf r target)
      (fun l hl c => takeHandle_count hl c) (fun c => ?_) fun c => ?_
    · simp [Op.hold, Op.store, Pc.hold]; omega
    · simp [Op.thold, Op.window, Op.dels, Op.store, Pc.thold]
  | compareExchangeWeak t r exp des =>
    refine hi.call (g := fun c => is exp c + is des c) hs
      ⟨trivial, trivial, by simp [Op.compareExchangeWeak]⟩ trivial (fun l hl c => ?_) (fun c => ?_)
      fun c => ?_
    · obtain ⟨l₁, h1, h2⟩ := Option.bind_eq_some_iff.1 hl
      have := takeHandle_count h1 c
      have := takeHandle_count h2 c
      omega
    · simp [Op.hold, Op.compareExchangeWeak, Pc.hold, Cont.hold, dstrong]
    · simp [Op.thold, Op.window, Op.dels, Op.compareExchangeWeak, Pc.thold, dtransient, window, dels]
  | go t sp =>
    obtain ⟨x, hx, rfl⟩ := Option.map_eq_some_iff.1 hs
    exact hi.go hlim hkeep hx
  | ret t =>
    simp only [step] at hs
    split at hs
    · rename_i hpc htodo
      obtain rfl := Option.some.inj hs
      exact hi.ret hpc htodo
    · cases hs

omit [DecidableEq ι] [DecidableEq ρ] in
theorem inv_init : Inv (init : State ρ ι) := by
  have hext : ∀ b, bagExt (init : State ρ ι).bag b = 0 := fun b => by simp [bagExt, init]
  have hgiven : ∀ b, given (init : State ρ ι).mem (init : State ρ ι).ops b = 0 := fun b => by
    simp [given, init, Op.dels, Op.idle, dels]
  have hregs : ∀ b, (init : State ρ ι).mem.regs b = 0 := fun b => by
    simp [Mem.regs, init, StampedPtr.null]
  refine ⟨⟨fun r => Nat.zero_le _, fun t => ⟨trivial, trivial⟩, fun t => trivial,
    bagExt_nonneg _, fun b => ?_, fun b => ?_, fun b _ => hgiven b, fun b => (hgiven b).le.trans zero_le_one,
    fun b _ => ⟨fun t => rfl, fun t => rfl, fun t => rfl, hext b, hregs b⟩, fun b hb => by cases hb⟩,
    fun _ _ => rfl⟩
  · rw [hext, hregs]
    simp [init, Op.window, Op.hold, Op.idle, Pc.hold, dstrong, window]
  · simp [Mem.stamps, init, Op.thold, Op.idle, Pc.thold, dtransient, stampOf, StampedPtr.null]

end inv

/-! ## Lifetime -/

section safety

variable [Fintype ρ] [Fintype ι]

/-- In every run without a stamp above the limit in which no block is dropped between its publication
by `CompareExchangeWeak` and the increment that follows: no step touches a deleted block, no block
is deleted twice, and a block to which no handle, register or operation refers is deleted. -/
theorem keeps_lifetime {s : State ρ ι}
    (r : Reach (system ρ ι) (fun s a => Limited s a ∧ KeepsPublished s a) s) : Safe s := by
  have hi : Inv s := r.invariant (I := Inv) (fun _ h => h ▸ inv_init)
    fun _ _ _ hi hok hs => inv_step hi hok.1 hok.2 hs
  refine ⟨fun t b hb => hi.life.touches hb, hi.life.deleted_nodup, fun b hb hd => ?_⟩
  rcases hi.life.referred hb hd with h | h | ⟨t, h⟩
  · left
    obtain ⟨t, -, ht⟩ := Finset.exists_ne_zero_of_sum_ne_zero (f := fun t => ((s.bag t).count b : Int))
      (ne_of_gt h)
    exact ⟨t, List.count_pos_iff.1 (by omega)⟩
  · right; left
    obtain ⟨r, -, hr⟩ := Finset.exists_ne_zero_of_sum_ne_zero (f := fun r => is (s.mem.reg r).raw b)
      (ne_of_gt h)
    refine ⟨r, ?_⟩
    by_contra hne
    exact hr (is_eq_zero.2 hne)
  · right; right
    exact ⟨t, Op.refersTo_of_owns h⟩

/-- The instruction is an increment that a publishing CAS still owes. -/
def Instr.isPub : Instr → Bool
  | .pub _ => true
  | _ => false

/-- `Limited`, as a test. -/
def limitedCheck (s : State ρ ι) : Act ρ ι → Bool
  | .go t _ => (s.ops t).limitedCheck
  | _ => true

/-- `KeepsPublished`, as a test that is enough for short runs. -/
def keepsCheck (s : State ρ ι) : Act ρ ι → Bool
  | .go t _ => match (s.ops t).todo with
    | [] => true
    | i :: _ => match i.adds with
      | none => true
      | some (b, ds, dt) => s.mem.strong b + ds != 0 || s.mem.transient b + dt != 0 ||
        decide (∀ u, (s.ops u).todo.all fun i => !i.isPub)
  | _ => true

omit [DecidableEq ρ] [DecidableEq ι] [Fintype ρ] [Fintype ι] in
theorem limited_of_check (s : State ρ ι) (a : Act ρ ι) (h : limitedCheck s a = true) : Limited s a := by
  cases a with
  | go t sp => exact Op.limited_of_check h
  | _ => trivial

omit [DecidableEq ρ] [DecidableEq ι] [Fintype ρ] in
theorem keeps_of_check (s : State ρ ι) (a : Act ρ ι) (h : keepsCheck s a = true) : KeepsPublished s a := by
  cases a with
  | go t sp =>
    intro i l b ds dt htodo hadds hs ht u hp
    simp only [keepsCheck, htodo, hadds, hs, ht, bne_self_eq_false, Bool.false_or,
      decide_eq_true_eq, List.all_eq_true] at h
    have := h u _ hp
    simp [Instr.isPub] at this
  | _ => trivial

omit [DecidableEq ρ] [DecidableEq ι] [Fintype ρ] in
theorem both_of_check (s : State ρ ι) (a : Act ρ ι)
    (h : (limitedCheck s a && keepsCheck s a) = true) : Limited s a ∧ KeepsPublished s a := by
  rw [Bool.and_eq_true] at h
  exact ⟨limited_of_check s a h.1, keeps_of_check s a h.2⟩

/-- Thread 0 makes an object and puts a copy of its handle into the register; thread 1 loads it, empties
the register and drops its handle last. -/
def publishLoadDrop : List (Act Unit (Fin 2)) :=
  [Act.makeShared 0, Act.copy 0 0, Act.go 0 false, Act.ret 0, Act.compareExchangeWeak 0 () none (some 0)]
    ++ List.replicate 4 (Act.go 0 false) ++ [Act.ret 0, Act.load 1 ()] ++ List.replicate 5 (Act.go 1 false)
    ++ [Act.ret 1, Act.reset 0 0, Act.go 0 false, Act.ret 0, Act.store 1 () none] ++ List.replicate 4 (Act.go 1 false)
    ++ [Act.ret 1, Act.reset 1 0, Act.go 1 false, Act.go 1 false, Act.ret 1]

theorem dropped_object_deleted : ∃ s : State Unit (Fin 2),
    Reach (system Unit (Fin 2)) (fun s a => Limited s a ∧ KeepsPublished s a) s ∧
      (s.mem.allocs = 1 ∧ s.mem.deleted = [0]) ∧ Safe s := by
  obtain ⟨s, r, hp⟩ := Reach.of_exec (system Unit (Fin 2)) publishLoadDrop
    (fun s => decide (s.mem.allocs = 1 ∧ s.mem.deleted = [0])) both_of_check rfl (by decide)
  exact ⟨s, r, of_decide_eq_true hp, keeps_lifetime r⟩

/-- Thread 0 moves its only handle into the register by `CompareExchangeWeak` and stops after the CAS;
thread 1 empties the register. -/
def moveIntoRegister : List (Act Unit (Fin 2)) :=
  [Act.makeShared 0, Act.compareExchangeWeak 0 () none (some 0), Act.go 0 false, Act.go 0 false,
   Act.store 1 () none] ++ List.replicate 5 (Act.go 1 false)

/-- The block is deleted, and the next step of thread 0 increments its counter. -/
theorem moved_desired_is_deleted :
    ¬ ∀ s : State Unit (Fin 2), Reach (system Unit (Fin 2)) Limited s → Safe s := by
  intro hsafe
  obtain ⟨s, r, hp⟩ := Reach.of_exec (system Unit (Fin 2)) moveIntoRegister
    (fun s => decide ((s.ops 0).touches = some 0 ∧ 0 ∈ s.mem.deleted)) limited_of_check rfl (by decide)
  obtain ⟨h1, h2⟩ := of_decide_eq_true hp
  exact (hsafe s r).1 0 0 h1 h2

end safety

end SharedPtr
