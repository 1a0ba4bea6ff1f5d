import ConcurrencyCourse.SharedPtr.Lifetime
import ConcurrencyCourse.SharedPtr.LockFreeStack
import Mathlib.Algebra.Order.Group.Int

/-!
# `LockFreeStack` on `AtomicSharedPtr`: the two operations it calls

What an access of a `Load` (`loadOk_access`) or of a `CompareExchangeWeak` (`casOk_access`) to `top_`
can do, and the nodes along `next`.
-/

namespace LockFreeStack

open Transition SharedPtr Function StampedPtr

/-! ## The operations -/

section ops

/-- A `Load`; `K` holds of the handles it has seen. -/
def LoadOk (K : Handle → Prop) (op : Op Unit) : Prop :=
  (∀ b, Instr.pub b ∉ op.todo) ∧ match op.pc with
  | .acqLoad _ (.load .value) => True
  | .acqCas _ (.load .value) curr => K curr.raw
  | .loadEnd _ w .value => K w.raw
  | .done (.loaded h) => K h
  | _ => False

/-- A `CompareExchangeWeak(expected, des)`: `E` holds of `expected` before the CAS of the word, `S` of
what the operation has of it after a successful one. -/
def CasOk (K E S : Handle → Prop) (des : Handle) (op : Op Unit) : Prop :=
  match op.pc with
  | .acqLoad _ (.cas e d) => op.todo = [] ∧ K e ∧ E e ∧ d = des
  | .acqCas _ (.cas e d) curr => op.todo = [] ∧ K e ∧ E e ∧ d = des ∧ K curr.raw
  | .casTry _ _ e d => op.todo = [] ∧ K e ∧ E e ∧ d = des
  | .acqLoad _ (.load (.casFail _ _ _)) => ∀ b, Instr.pub b ∉ op.todo
  | .acqCas _ (.load (.casFail _ _ _)) curr => (∀ b, Instr.pub b ∉ op.todo) ∧ K curr.raw
  | .loadEnd _ w (.casFail _ _ _) => (∀ b, Instr.pub b ∉ op.todo) ∧ K w.raw
  | .done (.cas false e) => (∀ b, Instr.pub b ∉ op.todo) ∧ K e
  | .done (.cas true e) => S e ∧ (∀ b ds dt, Instr.inc b ds dt ∈ op.todo → ds ≤ 0) ∧
      ∀ b, Instr.pub b ∈ op.todo → des = some b
  | _ => False

/-- The CAS of the word was successful. -/
def committed (op : Op Unit) : Bool :=
  match op.pc with
  | .done (.cas true _) => true
  | _ => false

/-- The operation still has `expected`, or has given it back. -/
def Using (op : Op Unit) : Prop :=
  match op.pc with
  | .acqLoad _ (.cas _ _) | .acqCas _ (.cas _ _) _ | .casTry _ _ _ _ | .done (.cas true _) => True
  | _ => False

variable {K K' E S : Handle → Prop} {des des' : Handle} {m m' : Mem Unit} {op op' : Op Unit}
  {pc : Pc Unit} {sp : Bool}

theorem pub_not_mem_incs (h : Handle) (ds dt : Int) (b : Nat) : Instr.pub b ∉ incs h ds dt := by
  cases h <;> simp [incs]

theorem acquired_noPub (w : StampedPtr Nat) (k : Cont) (b : Nat) :
    Instr.pub b ∉ (acquired () w k).todo := by
  cases k with
  | load ret => simp [acquired, pub_not_mem_incs]
  | cas exp des => simp only [acquired]; split <;> simp [pub_not_mem_incs]

theorem acquireLoop_noPub (w : StampedPtr Nat) (k : Cont) (b : Nat) :
    Instr.pub b ∉ (acquireLoop () k w).todo := by
  unfold acquireLoop
  split
  · exact acquired_noPub w k b
  · simp

theorem loadRet_noPub (h : Handle) (ret : Ret) (b : Nat) :
    Instr.pub b ∉ (loadRet h ret : Op Unit).todo := by
  cases ret <;> simp [loadRet, pub_not_mem_incs]

theorem LoadOk.mono (h : LoadOk K op) (hK : ∀ x, K x → K' x) : LoadOk K' op := by
  obtain ⟨h1, h2⟩ := h
  refine ⟨h1, ?_⟩
  split at h2 <;> first | exact trivial | exact hK _ h2 | exact h2.elim

theorem CasOk.mono (h : CasOk K E S des op) (hK : ∀ x, K x → K' x) (hdes : Using op → des' = des) :
    CasOk K' E S des' op := by
  obtain ⟨pc, todo⟩ := op
  match pc, h with
  | .acqLoad _ (.cas e d), ⟨h1, h2, h3, h4⟩ => exact ⟨h1, hK _ h2, h3, h4.trans (hdes trivial).symm⟩
  | .acqCas _ (.cas e d) curr, ⟨h1, h2, h3, h4, h5⟩ =>
    exact ⟨h1, hK _ h2, h3, h4.trans (hdes trivial).symm, hK _ h5⟩
  | .casTry _ _ e d, ⟨h1, h2, h3, h4⟩ => exact ⟨h1, hK _ h2, h3, h4.trans (hdes trivial).symm⟩
  | .acqLoad _ (.load (.casFail _ _ _)), h => exact h
  | .acqCas _ (.load (.casFail _ _ _)) curr, ⟨h1, h2⟩ => exact ⟨h1, hK _ h2⟩
  | .loadEnd _ w (.casFail _ _ _), ⟨h1, h2⟩ => exact ⟨h1, hK _ h2⟩
  | .done (.cas false e), ⟨h1, h2⟩ => exact ⟨h1, hK _ h2⟩
  | .done (.cas true e), ⟨h1, h2, h3⟩ =>
    exact ⟨h1, h2, fun b hb => (hdes trivial).trans (h3 b hb)⟩

theorem dstrong_nonpos {l : List Instr} (hl : ∀ b ds dt, Instr.inc b ds dt ∈ l → ds ≤ 0) (c : Nat) :
    dstrong l c ≤ 0 := by
  induction l with
  | nil => exact le_refl _
  | cons i l ih =>
    have ih := ih fun b ds dt hm => hl b ds dt (List.mem_cons_of_mem _ hm)
    cases i with
    | inc b ds dt =>
      have := hl b ds dt List.mem_cons_self
      simp only [dstrong]
      split <;> omega
    | pub b => exact ih
    | del b => exact ih

/-- The operation owns `expected` as long as it uses it. -/
theorem CasOk.hold_pos {c : Nat} (h : CasOk K (· = some c) (· = some c) des op) (hu : Using op) :
    1 ≤ op.hold c := by
  obtain ⟨pc, todo⟩ := op
  match pc, h with
  | .acqLoad _ (.cas e d), ⟨h1, _, h3, _⟩ | .acqCas _ (.cas e d) curr, ⟨h1, _, h3, _⟩
  | .casTry _ _ e d, ⟨h1, _, h3, _⟩ =>
    obtain rfl : e = some c := h3
    obtain rfl : todo = [] := h1
    have := is_nonneg d c
    simp only [Op.hold, Pc.hold, Cont.hold, dstrong, is_self]
    omega
  | .done (.cas true e), ⟨h1, h2, _⟩ =>
    obtain rfl : e = some c := h1
    have : dstrong todo c ≤ 0 := dstrong_nonpos h2 c
    simp only [Op.hold, Pc.hold, Res.hold, is_self]
    omega

/-- The other updates of the counters do not matter for the operation. -/
theorem LoadOk.todo {l : List Instr} (h : LoadOk K op) (hl : ∀ b, Instr.pub b ∉ l) :
    LoadOk K ⟨op.pc, l⟩ :=
  ⟨hl, h.2⟩

theorem CasOk.todo {l : List Instr} (h : CasOk K E S des op) (hne : op.todo ≠ [])
    (hpub : ∀ b, Instr.pub b ∉ l)
    (hrel : (∀ b ds dt, Instr.inc b ds dt ∈ op.todo → ds ≤ 0) → ∀ b ds dt, Instr.inc b ds dt ∈ l → ds ≤ 0) :
    CasOk K E S des ⟨op.pc, l⟩ := by
  obtain ⟨pc, todo⟩ := op
  match pc, h with
  | .acqLoad _ (.cas e d), h | .acqCas _ (.cas e d) curr, h | .casTry _ _ e d, h => exact absurd h.1 hne
  | .acqLoad _ (.load (.casFail _ _ _)), h => exact hpub
  | .acqCas _ (.load (.casFail _ _ _)) curr, ⟨_, h2⟩ => exact ⟨hpub, h2⟩
  | .loadEnd _ w (.casFail _ _ _), ⟨_, h2⟩ => exact ⟨hpub, h2⟩
  | .done (.cas false e), ⟨_, h2⟩ => exact ⟨hpub, h2⟩
  | .done (.cas true e), ⟨h1, h2, _⟩ => exact ⟨h1, hrel h2, fun b hb => absurd hb (hpub b)⟩

/-- What an access of a `Load` to `top_` does. -/
theorem loadOk_access (h : LoadOk K ⟨pc, []⟩) (hcalm : pc.Calm) (hreg : K (m.reg ()).raw)
    (hs : pcStep m sp pc = some (m', op')) :
    (m'.reg ()).raw = (m.reg ()).raw ∧ LoadOk K op' := by
  have hloop : ∀ w : StampedPtr Nat, K w.raw → LoadOk K (acquireLoop () (.load .value) w) := by
    intro w hw
    unfold acquireLoop
    split
    · exact ⟨acquired_noPub w _, hw⟩
    · exact ⟨fun b => by simp, hw⟩
  match pc, h with
  | .acqLoad _ (.load .value), _ =>
    simp only [pcStep, Option.some.injEq, Prod.mk.injEq] at hs
    obtain ⟨rfl, rfl⟩ := hs
    exact ⟨rfl, hloop _ hreg⟩
  | .acqCas _ (.load .value) curr, ⟨_, h2⟩ =>
    simp only [pcStep] at hs
    split at hs <;> simp only [Option.some.injEq, Prod.mk.injEq] at hs <;> obtain ⟨rfl, rfl⟩ := hs
    · rename_i hcas
      exact ⟨by simp [Mem.setReg, hcas.2, incrementStamp], acquired_noPub _ _, h2⟩
    · exact ⟨rfl, hloop _ hreg⟩
  | .loadEnd _ w .value, ⟨_, h2⟩ =>
    have hle : w.stamp ≤ limit := hcalm
    simp only [pcStep, Option.some.injEq, Prod.mk.injEq, if_neg (Nat.not_lt.2 hle)] at hs
    obtain ⟨rfl, rfl⟩ := hs
    exact ⟨rfl, loadRet_noPub _ _, h2⟩

/-- The result of a `Load` is the null handle. -/
def Empty (pc : Pc Unit) : Prop :=
  (∃ r w, pc = .loadEnd r w .value ∧ w.raw = none) ∨ pc = .done (.loaded none)

/-- A `Load` finds out that `top_` is empty when it is. -/
theorem loadOk_empty (h : LoadOk K ⟨pc, []⟩) (hcalm : pc.Calm) (hs : pcStep m sp pc = some (m', op'))
    (he : Empty op'.pc) : (m.reg ()).raw = none ∨ Empty pc := by
  have hloop : ∀ w : StampedPtr Nat, Empty (acquireLoop () (.load .value) w).pc → w.raw = none := by
    intro w hw
    unfold acquireLoop at hw
    split at hw
    · assumption
    · rcases hw with ⟨r, w', hw, -⟩ | hw <;> cases hw
  match pc, h with
  | .acqLoad _ (.load .value), _ =>
    simp only [pcStep, Option.some.injEq, Prod.mk.injEq] at hs
    obtain ⟨-, rfl⟩ := hs
    exact .inl (hloop _ he)
  | .acqCas _ (.load .value) curr, _ =>
    simp only [pcStep] at hs
    split at hs <;> simp only [Option.some.injEq, Prod.mk.injEq] at hs <;> obtain ⟨-, rfl⟩ := hs
    · rename_i hcas
      rcases he with ⟨r, w, hw, hn⟩ | hw
      · simp only [acquired, Pc.loadEnd.injEq] at hw
        obtain ⟨-, rfl, -⟩ := hw
        rw [hcas.2, raw_packed]
        exact .inl hn
      · cases hw
    · exact .inl (hloop _ he)
  | .loadEnd r w .value, _ =>
    have hle : w.stamp ≤ limit := hcalm
    simp only [pcStep, Option.some.injEq, Prod.mk.injEq, if_neg (Nat.not_lt.2 hle)] at hs
    obtain ⟨-, rfl⟩ := hs
    rcases he with ⟨r, w, hw, hn⟩ | hw
    · cases hw
    · simp only [loadRet, Pc.done.injEq, Res.loaded.injEq] at hw
      exact .inr (.inl ⟨r, w, rfl, hw⟩)

/-- `AcquireReference` has read `w` for a `CompareExchangeWeak`. -/
theorem casOk_acquired {w : StampedPtr Nat} {e : Handle} (hw : K w.raw) (hK : K e) (hE : E e) :
    CasOk K E S des (acquired () w (.cas e des)) ∧ committed (acquired () w (.cas e des)) = false := by
  simp only [acquired]
  split
  · exact ⟨⟨fun b => by simp [pub_not_mem_incs], hw⟩, rfl⟩
  · exact ⟨⟨rfl, hK, hE, rfl⟩, rfl⟩

theorem casOk_acquireLoop {w : StampedPtr Nat} {e : Handle} (hw : K w.raw) (hK : K e) (hE : E e) :
    CasOk K E S des (acquireLoop () (.cas e des) w) ∧ committed (acquireLoop () (.cas e des) w) = false := by
  unfold acquireLoop
  split
  · exact casOk_acquired hw hK hE
  · exact ⟨⟨rfl, hK, hE, rfl, hw⟩, rfl⟩

/-- The `Load` of a `CompareExchangeWeak` that has failed. -/
theorem casOk_acquireLoop_load {w : StampedPtr Nat} {e o d : Handle} (hw : K w.raw) :
    CasOk K E S des (acquireLoop () (.load (.casFail e o d)) w) ∧
      committed (acquireLoop () (.load (.casFail e o d)) w) = false := by
  unfold acquireLoop
  split
  · exact ⟨⟨acquired_noPub w _, hw⟩, rfl⟩
  · exact ⟨⟨fun b => by simp, hw⟩, rfl⟩

/-- What an access of a `CompareExchangeWeak` to `top_` does: it publishes `des`, or the handle in
`top_` stays. -/
theorem casOk_access (h : CasOk K E S des ⟨pc, []⟩) (hok : pc.Ok) (hcalm : pc.Calm)
    (hreg : K (m.reg ()).raw) (hs : pcStep m sp pc = some (m', op')) :
    (((m'.reg ()).raw = (m.reg ()).raw ∧ CasOk K E S des op' ∧ committed op' = false) ∧
      ∀ w e d, pc = .casTry () w e d → ¬ (sp = false ∧ m.reg () = (StampedPtr.mk e w.stamp).packed)) ∨
    ∃ w e, pc = .casTry () w e des ∧ K e ∧ E e ∧
      (sp = false ∧ m.reg () = (StampedPtr.mk e w.stamp).packed) ∧ m' = m.setReg () ⟨des, 0⟩ ∧
      op' = ⟨.done (.cas true e),
        des.toList.map .pub ++ incs e (-1) ((w.stamp : Int) - 1) ++ incs des (-1) 0⟩ := by
  match pc, h with
  | .acqLoad _ (.cas e d), ⟨_, h2, h3, h4⟩ =>
    obtain rfl : d = des := h4
    simp only [pcStep, Option.some.injEq, Prod.mk.injEq] at hs
    obtain ⟨rfl, rfl⟩ := hs
    exact .inl ⟨⟨rfl, casOk_acquireLoop hreg h2 h3⟩, by simp⟩
  | .acqCas _ (.cas e d) curr, ⟨_, h2, h3, h4, h5⟩ =>
    obtain rfl : d = des := h4
    simp only [pcStep] at hs
    split at hs <;> simp only [Option.some.injEq, Prod.mk.injEq] at hs <;> obtain ⟨rfl, rfl⟩ := hs
    · rename_i hcas
      exact .inl ⟨⟨by simp [Mem.setReg, hcas.2, incrementStamp], casOk_acquired h5 h2 h3⟩, by simp⟩
    · exact .inl ⟨⟨rfl, casOk_acquireLoop hreg h2 h3⟩, by simp⟩
  | .acqLoad _ (.load (.casFail e o d)), _ =>
    simp only [pcStep, Option.some.injEq, Prod.mk.injEq] at hs
    obtain ⟨rfl, rfl⟩ := hs
    exact .inl ⟨⟨rfl, casOk_acquireLoop_load hreg⟩, by simp⟩
  | .acqCas _ (.load (.casFail e o d)) curr, ⟨_, h2⟩ =>
    simp only [pcStep] at hs
    split at hs <;> simp only [Option.some.injEq, Prod.mk.injEq] at hs <;> obtain ⟨rfl, rfl⟩ := hs
    · rename_i hcas
      exact .inl ⟨⟨by simp [Mem.setReg, hcas.2, incrementStamp], ⟨acquired_noPub _ _, h2⟩, rfl⟩, by simp⟩
    · exact .inl ⟨⟨rfl, casOk_acquireLoop_load hreg⟩, by simp⟩
  | .loadEnd _ w (.casFail e o d), ⟨_, h2⟩ =>
    have hle : w.stamp ≤ limit := hcalm
    simp only [pcStep, Option.some.injEq, Prod.mk.injEq, if_neg (Nat.not_lt.2 hle)] at hs
    obtain ⟨rfl, rfl⟩ := hs
    exact .inl ⟨⟨rfl, ⟨loadRet_noPub _ _, h2⟩, rfl⟩, by simp⟩
  | .casTry _ w e d, ⟨_, h2, h3, h4⟩ =>
    obtain rfl : d = des := h4
    simp only [pcStep] at hs
    split at hs <;> simp only [Option.some.injEq, Prod.mk.injEq] at hs <;> obtain ⟨rfl, rfl⟩ := hs
    · rename_i hcas
      exact .inr ⟨w, e, rfl, h2, h3, hcas, rfl, rfl⟩
    · rename_i hcas
      refine .inl ⟨⟨rfl, fun b => by simp [pub_not_mem_incs], rfl⟩, ?_⟩
      rintro w' e' d' heq
      simp only [Pc.casTry.injEq] at heq
      obtain ⟨-, rfl, rfl, -⟩ := heq
      exact hcas

theorem pcStep_pubFirst (hs : pcStep m sp pc = some (m', op')) : op'.PubFirst := by
  have hno : ∀ {op : Op Unit}, (∀ b, Instr.pub b ∉ op.todo) → op.PubFirst := fun h b hb =>
    h b (List.mem_of_mem_tail hb)
  cases pc with
  | idle | done => cases hs
  | acqLoad r k =>
    simp only [pcStep, Option.some.injEq, Prod.mk.injEq] at hs
    obtain ⟨-, rfl⟩ := hs
    exact hno (acquireLoop_noPub _ k)
  | acqCas r k curr =>
    simp only [pcStep] at hs
    split at hs <;> simp only [Option.some.injEq, Prod.mk.injEq] at hs <;> obtain ⟨-, rfl⟩ := hs
    · exact hno (acquired_noPub _ k)
    · exact hno (acquireLoop_noPub _ k)
  | loadEnd r w ret =>
    simp only [pcStep, Option.some.injEq, Prod.mk.injEq] at hs
    obtain ⟨-, rfl⟩ := hs
    split
    · exact hno fun b => pub_not_mem_incs _ _ _ b
    · exact hno (loadRet_noPub _ ret)
  | loadStore r w ret =>
    simp only [pcStep, Option.some.injEq, Prod.mk.injEq] at hs
    obtain ⟨-, rfl⟩ := hs
    exact hno (loadRet_noPub _ ret)
  | exchange r target =>
    simp only [pcStep, Option.some.injEq, Prod.mk.injEq] at hs
    obtain ⟨-, rfl⟩ := hs
    exact hno fun b => by simp [pub_not_mem_incs]
  | casTry r w exp des =>
    simp only [pcStep] at hs
    split at hs <;> simp only [Option.some.injEq, Prod.mk.injEq] at hs <;> obtain ⟨-, rfl⟩ := hs
    · intro b
      cases des with
      | none => exact fun hb => absurd (List.mem_of_mem_tail hb) (by simp [pub_not_mem_incs])
      | some d => simp [pub_not_mem_incs]
    · exact hno fun b => by simp [pub_not_mem_incs]

end ops

/-! ## The nodes -/

section nodes

variable {next next' : Nat → Handle}

/-- The nodes from a handle along `next`, all of them. -/
def Chain (next : Nat → Handle) : Handle → List Nat → Prop
  | h, [] => h = none
  | h, n :: l => h = some n ∧ Chain next (next n) l

theorem Chain.congr {h : Handle} {l : List Nat} (hc : Chain next h l)
    (heq : ∀ n ∈ l, next' n = next n) : Chain next' h l := by
  induction l generalizing h with
  | nil => exact hc
  | cons n l ih =>
    refine ⟨hc.1, ?_⟩
    rw [heq n List.mem_cons_self]
    exact ih hc.2 fun k hk => heq k (List.mem_cons_of_mem _ hk)

theorem walk_none (k : Nat) : walk next k none = [] := by
  cases k <;> rfl

theorem Chain.walk {h : Handle} {l : List Nat} {k : Nat} (hc : Chain next h l) (hk : l.length ≤ k) :
    walk next k h = l := by
  induction l generalizing h k with
  | nil => rw [show h = none from hc, walk_none]
  | cons n l ih =>
    obtain ⟨rfl, hc⟩ := hc
    cases k with
    | zero => simp at hk
    | succ k =>
      rw [LockFreeStack.walk, ih hc (by simpa using hk)]

/-- The handles in the first `k` nodes. -/
def nextExt (next : Nat → Handle) (k b : Nat) : Int := ∑ n ∈ Finset.range k, is (next n) b

theorem nextExt_nonneg (next : Nat → Handle) (k b : Nat) : 0 ≤ nextExt next k b :=
  Finset.sum_nonneg fun _ _ => is_nonneg _ _

theorem nextExt_update (next : Nat → Handle) {n k : Nat} (hn : n < k) (h : Handle) (b : Nat) :
    nextExt (update next n h) k b + is (next n) b = nextExt next k b + is h b :=
  Threads.sum_update_add_of_mem (fun h : Handle => is h b) next (Finset.mem_range.2 hn) h

theorem nextExt_succ {k : Nat} (hk : next k = none) (b : Nat) :
    nextExt next (k + 1) b = nextExt next k b := by
  rw [nextExt, Finset.sum_range_succ, hk, is_none, Int.add_zero, nextExt]

theorem one_le_nextExt {n k b : Nat} (hn : n < k) (h : next n = some b) : 1 ≤ nextExt next k b := by
  have h1 := Finset.single_le_sum (s := Finset.range k) (f := fun n => is (next n) b)
    (fun n _ => is_nonneg _ _) (Finset.mem_range.2 hn)
  simp only [h, is_self] at h1
  exact h1

end nodes

end LockFreeStack
