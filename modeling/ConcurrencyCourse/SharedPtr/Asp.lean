import Mathlib.Logic.Function.Basic
import ConcurrencyCourse.Stack.StampedPtr

/-!
# `SharedPtr` and `AtomicSharedPtr` (lockfree/shared_ptr/shared_ptr.hpp)

The operations of `AtomicSharedPtr` as their atomic steps. A step is an access to the stamped
word of a register, one `IncrementCounter`, or one `delete`.

| here | there |
| --- | --- |
| `Handle` | `SharedPtr::ctrl_ptr_` (a `ControlBlock*`) |
| `Mem.strong`, `Mem.transient` | `ControlBlock::counter` |
| `Instr.inc b ds dt` | `IncrementCounter(ds, dt)` on block `b` |
| `Instr.pub b` | `desired.IncrementStrong()` after the publishing CAS |
| `Instr.del b` | `delete ctrl_ptr_` |
| `Pc.acqLoad`, `Pc.acqCas` | the loop of `AcquireTransientRef` |

* An operation is a program counter and the counter updates it has to do before it
  (`Op.todo`). `IncrementCounter` is a CAS loop; the load and the failed CASes before the one that
  succeeds touch the block earlier than it does, so one step stands for the loop.
* Blocks are numbered in the order of their allocation. A comparison of pointers that the
  code makes is between blocks it holds references to.
* The counters are unbounded here; in the code they are `int32_t`, which is the same as long as there are fewer
  than 2^31 handles and references on the way to a block.
* A block that was deleted keeps its counters, so that a step which touches it can be seen.
-/

namespace SharedPtr

/-- `ctrl_ptr_`; `none` is `nullptr`. -/
abbrev Handle := Option Nat

structure Mem (ρ : Type) where
  reg : ρ → StampedPtr Nat
  strong : Nat → Int
  transient : Nat → Int
  allocs : Nat
  deleted : List Nat

inductive Instr where
  | inc (b : Nat) (ds dt : Int)
  | pub (b : Nat)
  | del (b : Nat)
  deriving DecidableEq

/-- The block that an instruction touches. -/
def Instr.block : Instr → Nat
  | .inc b _ _ | .pub b | .del b => b

/-- The `IncrementCounter` that an instruction is. -/
def Instr.adds : Instr → Option (Nat × Int × Int)
  | .inc b ds dt => some (b, ds, dt)
  | .pub b => some (b, 1, 0)
  | .del _ => none

/-- `handle.IncrementCounter(ds, dt)`: nothing for a null handle. -/
def incs (h : Handle) (ds dt : Int) : List Instr := h.toList.map fun b => .inc b ds dt

/-- Where the result of a `Load` goes: to the caller, or into `expected` of a failed CAS. -/
inductive Ret where
  | value
  | casFail (exp old des : Handle)
  deriving DecidableEq

/-- What an `AcquireTransientRef` is for. -/
inductive Cont where
  | load (ret : Ret)
  | cas (exp des : Handle)
  deriving DecidableEq

/-- The result of an operation, with the handles that the caller gets. -/
inductive Res where
  | unit
  | loaded (h : Handle)
  /-- A copy of a handle, and the handle. -/
  | copied (b : Nat)
  /-- The result of `CompareExchangeWeak` and `expected`. -/
  | cas (success : Bool) (exp : Handle)
  deriving DecidableEq

inductive Pc (ρ : Type) where
  | idle
  -- AcquireTransientRef
  | acqLoad (r : ρ) (k : Cont)
  | acqCas (r : ρ) (k : Cont) (curr : StampedPtr Nat)
  -- Load: `stamped_ptr.stamp > limit`, `atomic_stamped_ptr_.Store(stamped_ptr)`
  | loadEnd (r : ρ) (w : StampedPtr Nat) (ret : Ret)
  | loadStore (r : ρ) (w : StampedPtr Nat) (ret : Ret)
  -- Store: `atomic_stamped_ptr_.Exchange`
  | exchange (r : ρ) (target : Handle)
  -- CompareExchangeWeak: the CAS of the word
  | casTry (r : ρ) (w : StampedPtr Nat) (exp des : Handle)
  | done (res : Res)
  deriving DecidableEq

structure Op (ρ : Type) where
  pc : Pc ρ
  todo : List Instr
  deriving DecidableEq

variable {ρ : Type} [DecidableEq ρ]

/-! ### What a step writes -/

def Mem.setReg (m : Mem ρ) (r : ρ) (w : StampedPtr Nat) : Mem ρ :=
  { m with reg := Function.update m.reg r w.packed }

def Mem.count (m : Mem ρ) (b : Nat) (ds dt : Int) : Mem ρ :=
  { m with strong := Function.update m.strong b (m.strong b + ds)
           transient := Function.update m.transient b (m.transient b + dt) }

def Mem.delete (m : Mem ρ) (b : Nat) : Mem ρ := { m with deleted := b :: m.deleted }

/-- `new ControlBlock(data, {0, 0})` and `IncrementStrong()`: the block is still private. -/
def Mem.make (m : Mem ρ) : Mem ρ :=
  { m with allocs := m.allocs + 1, strong := Function.update m.strong m.allocs 1 }

/-- `if (strong == 0 && transient == 0) delete`. -/
def Mem.dropped (m : Mem ρ) (b : Nat) : List Instr :=
  if m.strong b = 0 ∧ m.transient b = 0 then [.del b] else []

/-! ### Operations -/

/-- The limit of `Load`. -/
def limit : Nat := 64000

/-- `Load()`. -/
def Op.load (r : ρ) : Op ρ := ⟨.acqLoad r (.load .value), []⟩

/-- `Store(target)`. -/
def Op.store (r : ρ) (target : Handle) : Op ρ := ⟨.exchange r target, incs target 1 0⟩

/-- `CompareExchangeWeak(expected, desired)`. -/
def Op.compareExchangeWeak (r : ρ) (exp des : Handle) : Op ρ := ⟨.acqLoad r (.cas exp des), []⟩

/-- The copy constructor. -/
def Op.copy (b : Nat) : Op ρ := ⟨.done (.copied b), [.inc b 1 0]⟩

/-- `Reset()`. -/
def Op.reset (b : Nat) : Op ρ := ⟨.done .unit, [.inc b (-1) 0]⟩

def Op.idle : Op ρ := ⟨.idle, []⟩

/-- After `AcquireTransientRef` returned `w`. `Load`: `ToSharedPtr`, `DecrementTransient`.
`CompareExchangeWeak` with another pointer: `expected = ToSharedPtr(w)`,
`expected.DecrementTransient()`, and `desired` is destroyed. -/
def acquired (r : ρ) (w : StampedPtr Nat) : Cont → Op ρ
  | .load ret => ⟨.loadEnd r w ret, incs w.raw 1 0 ++ incs w.raw 0 (-1)⟩
  | .cas exp des =>
    if w.raw ≠ exp then
      ⟨.done (.cas false w.raw),
        incs w.raw 1 0 ++ incs exp (-1) 0 ++ incs w.raw 0 (-1) ++ incs des (-1) 0⟩
    else ⟨.casTry r w exp des, []⟩

/-- `return shared_ptr`; in a failed CAS: `expected = …`, then `old_shared_ptr` and `desired` are
destroyed. -/
def loadRet (h : Handle) : Ret → Op ρ
  | .value => ⟨.done (.loaded h), []⟩
  | .casFail exp old des => ⟨.done (.cas false h), incs exp (-1) 0 ++ incs old (-1) 0 ++ incs des (-1) 0⟩

/-- The loop of `AcquireTransientRef` with the loaded word. -/
def acquireLoop (r : ρ) (k : Cont) (w : StampedPtr Nat) : Op ρ :=
  if w.raw = none then acquired r w k else ⟨.acqCas r k w, []⟩

/-- The next access to a register. -/
def pcStep (m : Mem ρ) (spurious : Bool) : Pc ρ → Option (Mem ρ × Op ρ)
  | .idle | .done _ => none
  | .acqLoad r k => some (m, acquireLoop r k (m.reg r))
  | .acqCas r k curr =>
    if spurious = false ∧ m.reg r = curr.packed then
      some (m.setReg r curr.incrementStamp, acquired r curr.incrementStamp k)
    else some (m, acquireLoop r k (m.reg r))
  | .loadEnd r w ret =>
    some (m, if limit < w.stamp then ⟨.loadStore r ⟨w.raw, w.stamp - limit⟩ ret, incs w.raw 0 limit⟩
      else loadRet w.raw ret)
  | .loadStore r w ret => some (m.setReg r w, loadRet w.raw ret)
  | .exchange r target =>
    some (m.setReg r ⟨target, 0⟩,
      ⟨.done .unit, incs (m.reg r).raw 1 0 ++ incs (m.reg r).raw (-1) (m.reg r).stamp ++
        incs (m.reg r).raw (-1) 0 ++ incs target (-1) 0⟩)
  | .casTry r w exp des =>
    if spurious = false ∧ m.reg r = (StampedPtr.mk exp w.stamp).packed then
      some (m.setReg r ⟨des, 0⟩,
        ⟨.done (.cas true exp),
          des.toList.map .pub ++ incs exp (-1) ((w.stamp : Int) - 1) ++ incs des (-1) 0⟩)
    else
      some (m, ⟨.acqLoad r (.load (.casFail exp w.raw des)), incs w.raw 1 0 ++ incs w.raw 0 (-1)⟩)

/-- The next step of an operation. `inner b` is the handle in the object of block `b`: deleting
the block destroys it. -/
def opStep (inner : Nat → Handle) (m : Mem ρ) (spurious : Bool) (op : Op ρ) :
    Option (Mem ρ × Op ρ) :=
  match op.todo with
  | [] => pcStep m spurious op.pc
  | .inc b ds dt :: l => some (m.count b ds dt, ⟨op.pc, (m.count b ds dt).dropped b ++ l⟩)
  | .pub b :: l => some (m.count b 1 0, ⟨op.pc, (m.count b 1 0).dropped b ++ l⟩)
  | .del b :: l => some (m.delete b, ⟨op.pc, incs (inner b) (-1) 0 ++ l⟩)

/-- The block that the next step touches. -/
def Op.touches (op : Op ρ) : Option Nat := op.todo.head?.map Instr.block

/-- The operation has published its `desired` and not counted it yet. -/
def Op.publishing (op : Op ρ) (b : Nat) : Prop := Instr.pub b ∈ op.todo

/-- The step does not bring a stamp above the limit, nor would it if it did not fail for no reason. -/
def Op.Limited (m : Mem ρ) (op : Op ρ) : Prop :=
  ∀ r k curr, op.todo = [] → op.pc = .acqCas r k curr → m.reg r = curr → curr.stamp + 1 ≤ limit

/-- `Limited`, as a test. -/
def Op.limitedCheck (op : Op ρ) : Bool :=
  match op.pc with
  | .acqCas _ _ curr => curr.stamp < limit
  | _ => true

omit [DecidableEq ρ] in
theorem Op.limited_of_check {m : Mem ρ} {op : Op ρ} (h : op.limitedCheck = true) : op.Limited m := by
  intro r k curr _ hpc _
  simp only [Op.limitedCheck, hpc, decide_eq_true_eq] at h
  exact h

/-- The handles that an operation has in its locals. -/
def Ret.handles : Ret → List Handle
  | .value => []
  | .casFail exp old des => [exp, old, des]

def Pc.handles : Pc ρ → List Handle
  | .idle | .done .unit => []
  | .acqLoad _ (.load ret) | .acqCas _ (.load ret) _ => ret.handles
  | .acqLoad _ (.cas exp des) | .acqCas _ (.cas exp des) _ => [exp, des]
  | .loadEnd _ w ret | .loadStore _ w ret => w.raw :: ret.handles
  | .exchange _ target => [target]
  | .casTry _ w exp des => [w.raw, exp, des]
  | .done (.loaded h) | .done (.cas _ h) => [h]
  | .done (.copied b) => [some b]

/-- The operation has a handle of the block, or still has to update its counters or delete it. -/
def Op.RefersTo (op : Op ρ) (b : Nat) : Prop :=
  some b ∈ op.pc.handles ∨ ∃ i ∈ op.todo, i.block = b

end SharedPtr
