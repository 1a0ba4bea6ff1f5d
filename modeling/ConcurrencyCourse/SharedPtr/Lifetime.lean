import ConcurrencyCourse.SharedPtr.Balance
import Mathlib.Data.List.Nodup
import Mathlib.Tactic.SplitIfs

/-!
# `AtomicSharedPtr`: a block lives exactly as long as somebody refers to it

`Lifetime m ops ext` is the invariant of the memory `m`, the operations `ops` of the threads and
the strong references `ext b` outside them (handles of the threads, handles inside objects). A
block that is not allocated or given up (deleted, or with its deletion pending) is referred to by
nobody; any other block has a counter that is not zero. The lemmas say what each kind of step has
to respect to keep it; the systems built on `AtomicSharedPtr` use them at their own steps.
-/

namespace SharedPtr

open StampedPtr Function

/-! ## Operations that own what they touch -/

section wf

variable {ρ : Type} {pc : Pc ρ}

theorem wfFrom_incs {h : Handle} {ds dt : Int} {l : List Instr} (hl : WFFrom pc l)
    (ht : ∀ c, h = some c → 1 ≤ pc.hold c - (ds + dstrong l c) ∨ 1 ≤ pc.thold c - (dt + dtransient l c))
    (hn : ∀ b, 0 ≤ pc.hold b - (ds * is h b + dstrong l b) ∧
      (pc.hold b - (ds * is h b + dstrong l b) = 0 → 0 ≤ pc.thold b - (dt * is h b + dtransient l b))) :
    WFFrom pc (incs h ds dt ++ l) := by
  cases h with
  | none => exact hl
  | some c =>
    refine ⟨?_, fun b => ?_, hl⟩
    · simpa [Touchable, Op.hold, Op.thold, dstrong, dtransient] using ht c rfl
    · have := hn b
      by_cases hc : c = b
      · subst hc; simpa [Op.hold, Op.thold, dstrong, dtransient] using this
      · simpa [Op.hold, Op.thold, dstrong, dtransient, is, hc] using this

/-- The last of the updates. -/
theorem wfFrom_incs_nil {h : Handle} {ds dt : Int}
    (ht : ∀ c, h = some c → 1 ≤ pc.hold c - ds ∨ 1 ≤ pc.thold c - dt)
    (hn : ∀ b, 0 ≤ pc.hold b - ds * is h b ∧ (pc.hold b - ds * is h b = 0 → 0 ≤ pc.thold b - dt * is h b)) :
    WFFrom pc (incs h ds dt) := by
  rw [← List.append_nil (incs h ds dt)]
  exact wfFrom_incs trivial (by simpa [dstrong, dtransient] using ht)
    (by simpa [dstrong, dtransient] using hn)

theorem wfFrom_pub {d : Nat} {l : List Instr} (hl : WFFrom pc l) (ht : 1 ≤ pc.hold d - dstrong l d)
    (hn : ∀ b, 0 ≤ pc.hold b - dstrong l b ∧
      (pc.hold b - dstrong l b = 0 → 0 ≤ pc.thold b - dtransient l b)) :
    WFFrom pc (.pub d :: l) :=
  ⟨ht, hn, hl⟩

/-- Giving back a handle that the operation owns. -/
theorem wfFrom_release {h : Handle} {l : List Instr} (hl : WFFrom pc l)
    (hs : ∀ b, 0 ≤ pc.hold b - dstrong l b) (ht : ∀ b, 0 ≤ pc.thold b - dtransient l b) :
    WFFrom pc (incs h (-1) 0 ++ l) := by
  refine wfFrom_incs hl (fun c _ => .inl ?_) fun b => ?_
  · have := hs c; omega
  · have := hs b
    have := ht b
    have := is_nonneg h b
    omega

theorem loadRet_wf (h : Handle) (ret : Ret) : (loadRet h ret : Op ρ).WF := by
  cases ret with
  | value => trivial
  | casFail exp old des =>
    have hh := is_nonneg h
    have hd := is_nonneg des
    have ho := is_nonneg old
    simp only [Op.WF, loadRet, List.append_assoc]
    refine wfFrom_release (wfFrom_release (wfFrom_incs_nil (fun c hc => ?_) fun b => ?_) (fun b => ?_)
      fun b => ?_) (fun b => ?_) fun b => ?_
    · subst hc; have := hh c; left; simp [Pc.hold, Res.hold]; omega
    · have := hh b; have := hd b; simp [Pc.hold, Pc.thold, Res.hold]; omega
    · have := hh b; have := hd b; simp [Pc.hold, Res.hold]; omega
    · simp [Pc.thold]
    · have := hh b; have := hd b; have := ho b; simp [Pc.hold, Res.hold]; omega
    · simp [Pc.thold]

/-- `ToSharedPtr`, then `DecrementTransient`, by who has a transient reference. -/
theorem wfFrom_toShared {h : Handle} (hs : ∀ b, 0 ≤ pc.hold b - is h b) (ht : ∀ b, 0 ≤ pc.thold b) :
    WFFrom pc (incs h 1 0 ++ incs h 0 (-1)) := by
  have hh := is_nonneg h
  refine wfFrom_incs (wfFrom_incs_nil (fun c hc => .inl ?_) fun b => ?_) (fun c hc => .inr ?_) fun b => ?_
  · subst hc; have := hs c; simp at this; omega
  · have := hs b; have := ht b; have := hh b; omega
  · subst hc; have := ht c; simp; omega
  · have := hs b; have := ht b; have := hh b; simp; omega

theorem acquired_wf (r : ρ) (w : StampedPtr Nat) (k : Cont) : (acquired r w k).WF := by
  have hw := is_nonneg w.raw
  cases k with
  | load ret =>
    have hpc : ∀ b, (Pc.loadEnd r w ret).hold b = is w.raw b + ret.hold b := fun _ => rfl
    change WFFrom (.loadEnd r w ret) (incs w.raw 1 0 ++ incs w.raw 0 (-1))
    refine wfFrom_toShared (fun b => ?_) fun b => le_refl _
    have := ret.hold_nonneg b
    rw [hpc]; omega
  | cas exp des =>
    have he := is_nonneg exp
    have hd := is_nonneg des
    simp only [acquired]
    split
    · simp only [Op.WF, List.append_assoc]
      refine wfFrom_incs (wfFrom_release (wfFrom_incs (wfFrom_incs_nil (fun c hc => ?_) fun b => ?_)
        (fun c hc => ?_) fun b => ?_) (fun b => ?_) fun b => ?_) (fun c hc => ?_) fun b => ?_
      · subst hc; have := hw c; left; simp [Pc.hold, Res.hold]; omega
      · have := hw b; have := hd b; simp [Pc.hold, Pc.thold, Res.hold]; omega
      · left; have := hd c; simp [Pc.hold, Res.hold, hc]; omega
      · have := hw b; have := hd b; simp [Pc.hold, Pc.thold, Res.hold]; omega
      · have := hw b; have := hd b; simp [Pc.hold, Res.hold]; omega
      · have := hw b; simp [Pc.thold]; omega
      · right; simp [Pc.thold, hc]
      · have := hw b; have := hd b; have := he b; simp [Pc.hold, Pc.thold, Res.hold]; omega
    · trivial

theorem acquireLoop_wf (r : ρ) (k : Cont) (w : StampedPtr Nat) : (acquireLoop r k w).WF := by
  unfold acquireLoop
  split
  · exact acquired_wf r w k
  · trivial

theorem store_wf (r : ρ) (target : Handle) : (Op.store r target).WF := by
  change WFFrom (.exchange r target) (incs target 1 0)
  refine wfFrom_incs_nil (fun c hc => .inl ?_) fun b => ?_
  · simp [Pc.hold, hc]
  · have := is_nonneg target b; simp [Pc.hold, Pc.thold]; omega

theorem copy_wf (b : Nat) : (Op.copy b : Op ρ).WF := by
  refine ⟨.inl ?_, fun c => ?_, trivial⟩
  · simp [Op.hold, Op.copy, Pc.hold, Res.hold, dstrong]
  · by_cases hc : b = c <;>
      simp [Op.hold, Op.thold, Op.copy, Pc.hold, Pc.thold, Res.hold, dstrong, dtransient, is, hc]

theorem reset_wf (b : Nat) : (Op.reset b : Op ρ).WF := by
  refine ⟨.inl ?_, fun c => ?_, trivial⟩
  · simp [Op.hold, Op.reset, Pc.hold, Res.hold, dstrong]
  · by_cases hc : b = c <;>
      simp [Op.hold, Op.thold, Op.reset, Pc.hold, Pc.thold, Res.hold, dstrong, dtransient, hc]

/-- The updates after a successful CAS, whatever the operation returns. -/
theorem published_wf (res exp des : Handle) (dt : Int) : WFFrom (.done (.cas true res) : Pc ρ)
    (des.toList.map .pub ++ incs exp (-1) dt ++ incs des (-1) 0) := by
  have hr := is_nonneg res
  have he := is_nonneg exp
  have hd := is_nonneg des
  have htail : WFFrom (.done (.cas true res) : Pc ρ) (incs exp (-1) dt ++ incs des (-1) 0) := by
    refine wfFrom_incs (wfFrom_incs_nil (fun c hc => .inl ?_) fun b => ?_) (fun c hc => .inl ?_)
      fun b => ?_
    · have := hr c; simp [Pc.hold, Res.hold]; omega
    · have := hr b; have := hd b; simp [Pc.hold, Pc.thold, Res.hold]; omega
    · have := hr c; have := hd c; simp [Pc.hold, Res.hold]; omega
    · have hr := hr b
      have := hd b
      simp only [Pc.hold, Pc.thold, Res.hold, dstrong_incs, dtransient_incs, is] at this hr ⊢
      split_ifs at this hr ⊢ <;> omega
  rw [List.append_assoc]
  cases des with
  | none => exact htail
  | some d =>
    change WFFrom _ (.pub d :: (incs exp (-1) dt ++ incs (some d) (-1) 0))
    refine wfFrom_pub htail ?_ fun b => ?_
    · have := hr d
      have := he d
      simp only [Pc.hold, Res.hold, dstrong_append, dstrong_incs, is_self]; omega
    · have hr := hr b
      have := hd b
      simp only [Pc.hold, Pc.thold, Res.hold, dstrong_append, dtransient_append, dstrong_incs,
        dtransient_incs, is] at this hr ⊢
      split_ifs at this hr ⊢ <;> omega

theorem pcStep_wf [DecidableEq ρ] {m m' : Mem ρ} {op' : Op ρ} {sp : Bool} (hok : pc.Ok)
    (h : pcStep m sp pc = some (m', op')) : op'.WF := by
  cases pc with
  | idle | done => cases h
  | acqLoad r k =>
    simp only [pcStep, Option.some.injEq, Prod.mk.injEq] at h
    obtain ⟨-, rfl⟩ := h
    exact acquireLoop_wf r k _
  | acqCas r k curr =>
    simp only [pcStep] at h
    split at h <;> simp only [Option.some.injEq, Prod.mk.injEq] at h <;> obtain ⟨-, rfl⟩ := h
    · exact acquired_wf r _ k
    · exact acquireLoop_wf r k _
  | loadEnd r w ret =>
    simp only [pcStep, Option.some.injEq, Prod.mk.injEq] at h
    obtain ⟨-, rfl⟩ := h
    split
    · have hw := is_nonneg w.raw
      have hr := ret.hold_nonneg
      refine wfFrom_incs_nil (fun c hc => .inl ?_) fun b => ?_
      · have := hr c; simp [Pc.hold, hc]; omega
      · have := hw b; have := hr b; simp [Pc.hold, Pc.thold]; omega
    · exact loadRet_wf _ _
  | loadStore r w ret =>
    simp only [pcStep, Option.some.injEq, Prod.mk.injEq] at h
    obtain ⟨-, rfl⟩ := h
    exact loadRet_wf _ _
  | exchange r target =>
    simp only [pcStep, Option.some.injEq, Prod.mk.injEq] at h
    obtain ⟨-, rfl⟩ := h
    have ho := is_nonneg (m.reg r).raw
    have ht := is_nonneg target
    simp only [Op.WF, List.append_assoc]
    refine wfFrom_incs (wfFrom_incs (wfFrom_release (wfFrom_incs_nil (fun c hc => .inl ?_) fun b => ?_)
      (fun b => ?_) fun b => ?_) (fun c hc => .inl ?_) fun b => ?_) (fun c hc => .inl ?_) fun b => ?_
    · simp [Pc.hold, Res.hold]
    · have := ht b; simp [Pc.hold, Pc.thold, Res.hold]; omega
    · have := ht b; simp [Pc.hold, Res.hold]; omega
    · simp [Pc.thold]
    · have := ht c; simp [Pc.hold, Res.hold, hc]; omega
    · have := ht b
      simp only [Pc.hold, Pc.thold, Res.hold, dstrong_append, dstrong_incs, dtransient_append,
        dtransient_incs, is] at this ⊢
      split_ifs at this ⊢ <;> omega
    · have := ht c; simp [Pc.hold, Res.hold, hc]; omega
    · have := ht b
      simp only [Pc.hold, Pc.thold, Res.hold, dstrong_append, dstrong_incs, dtransient_append,
        dtransient_incs, is] at this ⊢
      split_ifs at this ⊢ <;> omega
  | casTry r w exp des =>
    have he := is_nonneg exp
    have hd := is_nonneg des
    simp only [pcStep] at h
    split at h <;> simp only [Option.some.injEq, Prod.mk.injEq] at h <;> obtain ⟨-, rfl⟩ := h
    · exact published_wf exp exp des _
    · rw [hok.2]
      refine wfFrom_toShared (fun b => ?_) fun b => ?_
      · have := he b; have := hd b; simp [Pc.hold, Cont.hold, Ret.hold]; omega
      · exact le_refl _

end wf

/-! ## What an operation owns, it refers to -/

section refers

variable {ρ : Type}

theorem window_eq_zero {l : List Instr} {b : Nat} (h : Instr.pub b ∉ l) : window l b = 0 := by
  induction l with
  | nil => rfl
  | cons i l ih =>
    rw [List.mem_cons, not_or] at h
    cases i with
    | pub c =>
      have hc : c ≠ b := fun e => h.1 (by rw [e])
      rw [window, is_some_ne hc, ih h.2]; rfl
    | inc => exact ih h.2
    | del => exact ih h.2

theorem pc_handles {pc : Pc ρ} {b : Nat} (h : some b ∉ pc.handles) : pc.hold b = 0 ∧ pc.thold b = 0 := by
  have hne : ∀ {h : Handle}, some b ≠ h → is h b = 0 := fun h => is_eq_zero.2 fun e => h e.symm
  have hret : ∀ ret : Ret, some b ∉ ret.handles → ret.hold b = 0 := by
    intro ret h
    cases ret with
    | value => rfl
    | casFail exp old des =>
      simp only [Ret.handles, List.mem_cons, List.not_mem_nil, or_false, not_or] at h
      simp [Ret.hold, hne h.1, hne h.2.1, hne h.2.2]
  cases pc with
  | idle => exact ⟨rfl, rfl⟩
  | acqLoad r k | acqCas r k curr =>
    cases k with
    | load ret => exact ⟨hret ret h, rfl⟩
    | cas exp des =>
      simp only [Pc.handles, List.mem_cons, List.not_mem_nil, or_false, not_or] at h
      simp [Pc.hold, Pc.thold, Cont.hold, hne h.1, hne h.2]
  | loadEnd r w ret | loadStore r w ret =>
    simp only [Pc.handles, List.mem_cons, not_or] at h
    simp [Pc.hold, Pc.thold, hne h.1, hret ret h.2]
  | exchange r target =>
    simp only [Pc.handles, List.mem_singleton] at h
    simp [Pc.hold, Pc.thold, hne h]
  | casTry r w exp des =>
    simp only [Pc.handles, List.mem_cons, List.not_mem_nil, or_false, not_or] at h
    simp [Pc.hold, Pc.thold, hne h.1, hne h.2.1, hne h.2.2]
  | done res =>
    cases res with
    | unit => exact ⟨rfl, rfl⟩
    | loaded h' | cas s h' =>
      simp only [Pc.handles, List.mem_singleton] at h
      simp [Pc.hold, Pc.thold, Res.hold, hne h]
    | copied c =>
      simp only [Pc.handles, List.mem_singleton] at h
      simp [Pc.hold, Pc.thold, Res.hold, hne h]

theorem todo_blocks {l : List Instr} {b : Nat} (h : ∀ i ∈ l, i.block ≠ b) :
    dstrong l b = 0 ∧ dtransient l b = 0 ∧ window l b = 0 ∧ dels l b = 0 := by
  induction l with
  | nil => exact ⟨rfl, rfl, rfl, rfl⟩
  | cons i l ih =>
    obtain ⟨h1, h2, h3, h4⟩ := ih fun j hj => h j (List.mem_cons_of_mem _ hj)
    have hb := h i List.mem_cons_self
    cases i <;> simp_all [Instr.block, dstrong, dtransient, window, dels, is_some_ne]

/-- An operation that does not refer to the block owns nothing of it. -/
theorem Op.refersTo_of_owns {op : Op ρ} {b : Nat}
    (h : op.hold b ≠ 0 ∨ op.thold b ≠ 0 ∨ op.window b ≠ 0 ∨ op.dels b ≠ 0) : op.RefersTo b := by
  by_contra hn
  rw [Op.RefersTo, not_or, not_exists] at hn
  obtain ⟨h1, h2⟩ := hn
  obtain ⟨p1, p2⟩ := pc_handles h1
  obtain ⟨t1, t2, t3, t4⟩ := todo_blocks fun i hi e => h2 i ⟨hi, e⟩
  simp only [Op.hold, Op.thold, Op.window, Op.dels, p1, p2, t1, t2, t3, t4] at h
  simp at h

end refers

/-! ## The invariant -/

/-- No overflow: the branch of `Load` that stores a smaller stamp is not taken. -/
def Pc.Calm {ρ : Type} : Pc ρ → Prop
  | .loadEnd _ w _ => w.stamp ≤ limit
  | .loadStore _ _ _ => False
  | _ => True

variable {ρ ι : Type} [Fintype ρ] [Fintype ι]

/-- How often the block was deleted, or will be by a pending deletion. -/
def given (m : Mem ρ) (ops : ι → Op ρ) (b : Nat) : Nat := m.deleted.count b + ∑ t, (ops t).dels b

/-- Nobody refers to the block. -/
structure Unused (m : Mem ρ) (ops : ι → Op ρ) (ext : Nat → Int) (b : Nat) : Prop where
  hold : ∀ t, (ops t).hold b = 0
  thold : ∀ t, (ops t).thold b = 0
  window : ∀ t, (ops t).window b = 0
  ext : ext b = 0
  regs : m.regs b = 0

structure Lifetime (m : Mem ρ) (ops : ι → Op ρ) (ext : Nat → Int) : Prop where
  words : ∀ r, (m.reg r).stamp ≤ limit
  pcs : ∀ t, (ops t).pc.Ok ∧ (ops t).pc.Calm
  wf : ∀ t, (ops t).WF
  ext_nonneg : ∀ b, 0 ≤ ext b
  strong : ∀ b, m.strong b + ∑ t, (ops t).window b = ∑ t, (ops t).hold b + ext b + m.regs b
  transient : ∀ b, m.transient b + m.stamps b = ∑ t, (ops t).thold b
  fresh : ∀ b, m.allocs ≤ b → given m ops b = 0
  once : ∀ b, given m ops b ≤ 1
  unused : ∀ b, m.allocs ≤ b ∨ given m ops b = 1 → Unused m ops ext b
  live : ∀ b, b < m.allocs → given m ops b = 0 → m.strong b ≠ 0 ∨ m.transient b ≠ 0

section

variable {m m' : Mem ρ} {ops : ι → Op ρ} {ext ext' : Nat → Int} {t : ι} {b : Nat} {pc : Pc ρ}
  {l : List Instr}

theorem stampOf_eq_zero (hr : m.regs b = 0) : m.stamps b = 0 := by
  refine Finset.sum_eq_zero fun r _ => ?_
  have h := (Finset.sum_eq_zero_iff_of_nonneg fun r _ => is_nonneg (m.reg r).raw b).1 hr r
    (Finset.mem_univ r)
  rw [is_eq_zero] at h
  simp [stampOf, h]

/-- An owned block is alive. -/
theorem Lifetime.of_owned (h : Lifetime m ops ext)
    (ho : 1 ≤ (ops t).hold b ∨ 1 ≤ (ops t).thold b ∨ 1 ≤ ext b ∨ 1 ≤ m.regs b) :
    b < m.allocs ∧ given m ops b = 0 := by
  by_contra hn
  have h1 := h.once b
  have hu := h.unused b (by omega)
  have h2 := hu.hold t
  have h3 := hu.thold t
  have h4 := hu.ext
  have h5 := hu.regs
  omega

/-- So is one with a handle outside the operations. -/
theorem Lifetime.of_outside (h : Lifetime m ops ext) (ho : 1 ≤ ext b ∨ 1 ≤ m.regs b) :
    b < m.allocs ∧ given m ops b = 0 := by
  by_contra hn
  have h1 := h.once b
  have hu := h.unused b (by omega)
  have h4 := hu.ext
  have h5 := hu.regs
  omega

variable [DecidableEq ι]

omit [Fintype ρ] in
/-- The deletions that are pending or done, after a step of thread `t`. -/
theorem given_update (ops : ι → Op ρ) (t : ι) (op' : Op ρ) (hd : m'.deleted = m.deleted) (b : Nat) :
    given m' (update ops t op') b + (ops t).dels b = given m ops b + op'.dels b := by
  have := Threads.sum_update_add (fun op : Op ρ => op.dels b) ops t op'
  simp only [given, hd]
  omega

/-- A step of thread `t` that keeps the deletions and moves references between the operation, the
registers and the outside. -/
theorem Lifetime.update (h : Lifetime m ops ext) {op' : Op ρ}
    (hwords : ∀ r, (m'.reg r).stamp ≤ limit) (hpc : op'.pc.Ok ∧ op'.pc.Calm) (hwf : op'.WF)
    (hext : ∀ b, 0 ≤ ext' b)
    (hframe : m'.strong = m.strong ∧ m'.transient = m.transient ∧ m'.allocs = m.allocs ∧
      m'.deleted = m.deleted)
    (hhold : ∀ b, op'.hold b + ext' b + m'.regs b + (ops t).window b =
      (ops t).hold b + ext b + m.regs b + op'.window b)
    (hthold : ∀ b, m'.stamps b + (ops t).thold b = m.stamps b + op'.thold b)
    (hwin : ∀ b, op'.window b ≤ (ops t).hold b + (ops t).window b)
    (hdels : ∀ b, op'.dels b = (ops t).dels b) : Lifetime m' (update ops t op') ext' := by
  obtain ⟨f1, f2, f3, f4⟩ := hframe
  have hgiven : ∀ b, given m' (Function.update ops t op') b = given m ops b := by
    intro b
    have := given_update ops t op' f4 b
    have := hdels b
    omega
  refine ⟨hwords, fun u => ?_, fun u => ?_, hext, fun b => ?_, fun b => ?_, fun b hb => ?_, fun b => ?_,
    fun b hb => ?_, fun b hb hg => ?_⟩
  · by_cases hu : u = t
    · subst hu; rw [update_self]; exact hpc
    · rw [update_of_ne hu]; exact h.pcs u
  · by_cases hu : u = t
    · subst hu; rw [update_self]; exact hwf
    · rw [update_of_ne hu]; exact h.wf u
  · have h1 := Threads.sum_update_add (fun op : Op ρ => op.window b) ops t op'
    have h2 := Threads.sum_update_add (fun op : Op ρ => op.hold b) ops t op'
    have h3 := h.strong b
    have h4 := hhold b
    rw [f1]
    omega
  · have h1 := Threads.sum_update_add (fun op : Op ρ => op.thold b) ops t op'
    have h3 := h.transient b
    have h4 := hthold b
    rw [f2]
    omega
  · rw [hgiven]; exact h.fresh b (f3 ▸ hb)
  · rw [hgiven]; exact h.once b
  · rw [hgiven, f3] at hb
    have hu := h.unused b hb
    have h1 := hhold b
    have h2 := hthold b
    have h3 := hwin b
    have h4 := hwf.nonneg b
    have h5 := hext b
    have h6 := m'.regs_nonneg b
    have h7 := window_nonneg op'.todo b
    rw [hu.hold t, hu.window t] at h1 h3
    rw [hu.ext, hu.regs] at h1
    have h8 : op'.window b = 0 := by
      have : op'.window b = window op'.todo b := rfl
      omega
    have hr' : m'.regs b = 0 := by omega
    rw [stampOf_eq_zero hr', stampOf_eq_zero hu.regs, hu.thold t] at h2
    refine ⟨fun u => ?_, fun u => ?_, fun u => ?_, by omega, hr'⟩
    · by_cases hut : u = t
      · subst hut; rw [update_self]; omega
      · rw [update_of_ne hut]; exact hu.hold u
    · by_cases hut : u = t
      · subst hut; rw [update_self]; omega
      · rw [update_of_ne hut]; exact hu.thold u
    · by_cases hut : u = t
      · subst hut; rw [update_self]; exact h8
      · rw [update_of_ne hut]; exact hu.window u
  · rw [hgiven] at hg
    rw [f1, f2]
    exact h.live b (f3 ▸ hb) hg

/-- The caller hands references to an operation or takes them back. -/
theorem Lifetime.transfer (h : Lifetime m ops ext) {op' : Op ρ} (hpc : op'.pc.Ok ∧ op'.pc.Calm)
    (hwf : op'.WF) (hext : ∀ b, 0 ≤ ext' b)
    (hhold : ∀ b, op'.hold b + ext' b = (ops t).hold b + ext b)
    (hthold : ∀ b, op'.thold b = (ops t).thold b) (hwin : ∀ b, op'.window b = (ops t).window b)
    (hdels : ∀ b, op'.dels b = (ops t).dels b) : Lifetime m (Function.update ops t op') ext' := by
  refine h.update h.words hpc hwf hext ⟨rfl, rfl, rfl, rfl⟩ (fun b => ?_) (fun b => ?_) (fun b => ?_)
    hdels
  · have := hhold b
    have := hwin b
    omega
  · rw [hthold]
  · have := ((h.wf t).nonneg b).1
    have := hwin b
    omega

/-! ### The steps of an operation -/

omit [Fintype ρ] [Fintype ι] [DecidableEq ι] in
theorem owns_of_todo_nil (hop : (ops t).todo = []) (b : Nat) :
    (ops t).hold b = (ops t).pc.hold b ∧ (ops t).thold b = (ops t).pc.thold b ∧
      (ops t).window b = 0 ∧ (ops t).dels b = 0 := by
  simp [Op.hold, Op.thold, Op.window, Op.dels, hop, dstrong, dtransient, SharedPtr.window,
    SharedPtr.dels]

omit [Fintype ρ] [Fintype ι] [DecidableEq ι] in
theorem acquired_calm (r : ρ) {w : StampedPtr Nat} (hw : w.stamp ≤ limit) (k : Cont) :
    (acquired r w k).pc.Calm := by
  cases k with
  | load ret => exact hw
  | cas exp des => simp only [acquired]; split <;> trivial

omit [Fintype ρ] [Fintype ι] [DecidableEq ι] in
theorem acquireLoop_calm (r : ρ) {w : StampedPtr Nat} (hw : w.stamp ≤ limit) (k : Cont) :
    (acquireLoop r k w).pc.Calm := by
  unfold acquireLoop
  split
  · exact acquired_calm r hw k
  · trivial

omit [Fintype ρ] [Fintype ι] [DecidableEq ι] in
theorem loadRet_calm (h : Handle) (ret : Ret) : (loadRet h ret : Op ρ).pc.Calm := by
  cases ret <;> trivial

theorem limit_le_maxStamp : limit ≤ maxStamp := by decide

variable [DecidableEq ρ]

omit [Fintype ρ] [Fintype ι] [DecidableEq ι] in
/-- Without an increment above the limit the stamps stay below it. -/
theorem pcStep_calm {sp : Bool} {op' : Op ρ} (hw : ∀ r, (m.reg r).stamp ≤ limit) (hok : pc.Ok)
    (hc : pc.Calm) (hlim : ∀ r k curr, pc = .acqCas r k curr → m.reg r = curr → curr.stamp + 1 ≤ limit)
    (h : pcStep m sp pc = some (m', op')) :
    pc.Careful m ∧ (∀ r, (m'.reg r).stamp ≤ limit) ∧ op'.pc.Calm ∧
      ∀ b, op'.window b ≤ pc.hold b ∧ op'.dels b = 0 := by
  have hmax := limit_le_maxStamp
  have hset : ∀ r (w : StampedPtr Nat), w.stamp ≤ limit → ∀ r', ((m.setReg r w).reg r').stamp ≤ limit := by
    intro r w hle r'
    by_cases hr : r' = r
    · subst hr; simp only [Mem.setReg, update_self]; rw [packed_of_le (by omega)]; exact hle
    · simp only [Mem.setReg, update_of_ne hr]; exact hw r'
  have hzero : ∀ (op' : Op ρ) (pc : Pc ρ) (b : Nat), op'.window b = 0 → op'.dels b = 0 →
      op'.window b ≤ pc.hold b ∧ op'.dels b = 0 := fun op' pc b h1 h2 =>
    ⟨by rw [h1]; exact pc.hold_nonneg b, h2⟩
  cases pc with
  | idle | done => cases h
  | acqLoad r k =>
    simp only [pcStep, Option.some.injEq, Prod.mk.injEq] at h
    obtain ⟨rfl, rfl⟩ := h
    refine ⟨trivial, hw, acquireLoop_calm r (hw r) k, fun b => ?_⟩
    obtain ⟨-, -, h1, h2⟩ := acquireLoop_owns r k (m.reg r) b
    exact hzero _ _ b h1 h2
  | acqCas r k curr =>
    have hcar : (Pc.acqCas r k curr).Careful m := fun he => (hlim r k curr rfl he).trans hmax
    simp only [pcStep] at h
    split at h <;> simp only [Option.some.injEq, Prod.mk.injEq] at h <;> obtain ⟨rfl, rfl⟩ := h
    · rename_i hcas
      rw [packed_of_le hok.1] at hcas
      have hle : curr.incrementStamp.stamp ≤ limit := hlim r k curr rfl hcas.2
      refine ⟨hcar, hset r _ hle, acquired_calm r hle k, fun b => ?_⟩
      obtain ⟨-, -, h1, h2⟩ := acquired_owns r curr.incrementStamp k b
      exact hzero _ _ b h1 h2
    · refine ⟨hcar, hw, acquireLoop_calm r (hw r) k, fun b => ?_⟩
      obtain ⟨-, -, h1, h2⟩ := acquireLoop_owns r k (m.reg r) b
      exact hzero _ _ b h1 h2
  | loadEnd r w ret =>
    have hle : w.stamp ≤ limit := hc
    simp only [pcStep, Option.some.injEq, Prod.mk.injEq, if_neg (show ¬ limit < w.stamp by omega)] at h
    obtain ⟨rfl, rfl⟩ := h
    refine ⟨trivial, hw, loadRet_calm _ _, fun b => ?_⟩
    obtain ⟨-, -, h1, h2⟩ := loadRet_owns (ρ := ρ) w.raw ret b
    exact hzero _ _ b h1 h2
  | loadStore r w ret => exact hc.elim
  | exchange r target =>
    simp only [pcStep, Option.some.injEq, Prod.mk.injEq] at h
    obtain ⟨rfl, rfl⟩ := h
    exact ⟨trivial, hset r _ (Nat.zero_le _), trivial, fun b =>
      hzero _ _ b (by simp [Op.window]) (by simp [Op.dels])⟩
  | casTry r w exp des =>
    simp only [pcStep] at h
    split at h <;> simp only [Option.some.injEq, Prod.mk.injEq] at h <;> obtain ⟨rfl, rfl⟩ := h
    · refine ⟨trivial, hset r _ (Nat.zero_le _), trivial, fun b => ⟨?_, by simp [Op.dels]⟩⟩
      have := is_nonneg exp b
      simp [Op.window, Pc.hold]
      omega
    · exact ⟨trivial, hw, trivial, fun b => hzero _ _ b (by simp [Op.window]) (by simp [Op.dels])⟩

/-- An access to a register. -/
theorem Lifetime.access (h : Lifetime m ops ext) {sp : Bool} {op' : Op ρ} (htodo : (ops t).todo = [])
    (hlim : (ops t).Limited m) (hs : pcStep m sp (ops t).pc = some (m', op')) :
    Lifetime m' (Function.update ops t op') ext := by
  obtain ⟨hok, hcalm⟩ := h.pcs t
  obtain ⟨hcar, hw, hcalm', hwin⟩ := pcStep_calm h.words hok hcalm (fun r k curr => hlim r k curr htodo) hs
  have hwords : ∀ r, WordOk (m.reg r) := fun r => (h.words r).trans limit_le_maxStamp
  have howns := owns_of_todo_nil htodo
  refine h.update hw ⟨(pcStep_ok hwords hok hcar hs).2, hcalm'⟩ (pcStep_wf hok hs) h.ext_nonneg
    (pcStep_frame hs) (fun b => ?_) (fun b => ?_) (fun b => ?_) fun b => ?_
  · have := pcStep_hold hok hcar hs b
    obtain ⟨h1, -, h3, -⟩ := howns b
    omega
  · have := pcStep_thold hok hcar hs b
    obtain ⟨-, h2, -, -⟩ := howns b
    omega
  · have := (hwin b).1
    obtain ⟨h1, -, h3, -⟩ := howns b
    omega
  · rw [(hwin b).2, (howns b).2.2.2]

omit [Fintype ρ] [Fintype ι] [DecidableEq ι] [DecidableEq ρ] in
theorem dropped_lists (m : Mem ρ) (b c : Nat) :
    dstrong (m.dropped b) c = 0 ∧ dtransient (m.dropped b) c = 0 ∧ window (m.dropped b) c = 0 ∧
      dels (m.dropped b) c = if (m.strong b = 0 ∧ m.transient b = 0) ∧ b = c then 1 else 0 := by
  unfold Mem.dropped
  split
  · rename_i hz
    simp [dstrong, dtransient, window, dels, hz]
  · rename_i hz
    simp [dstrong, dtransient, window, dels, hz]

omit [DecidableEq ρ] [DecidableEq ι] in
/-- If the counters of `b` are zero while nobody publishes it, nobody refers to it. -/
theorem Unused.of_zero (hwf : ∀ u, (ops u).WF) (hext : ∀ b, 0 ≤ ext b)
    (hs : m.strong b + ∑ u, (ops u).window b = ∑ u, (ops u).hold b + ext b + m.regs b)
    (ht : m.transient b + m.stamps b = ∑ u, (ops u).thold b) (hs0 : m.strong b = 0)
    (ht0 : m.transient b = 0) (hw : ∀ u, (ops u).window b = 0) : Unused m ops ext b := by
  have h1 : ∑ u, (ops u).window b = 0 := Finset.sum_eq_zero fun u _ => hw u
  have h2 : 0 ≤ ∑ u, (ops u).hold b := Finset.sum_nonneg fun u _ => ((hwf u).nonneg b).1
  have h3 := hext b
  have h4 := m.regs_nonneg b
  have hregs : m.regs b = 0 := by omega
  have hhold : ∀ u, (ops u).hold b = 0 := fun u =>
    (Finset.sum_eq_zero_iff_of_nonneg fun u _ => ((hwf u).nonneg b).1).1 (by omega) u (Finset.mem_univ u)
  have hthold : ∀ u, (ops u).thold b = 0 := fun u =>
    (Finset.sum_eq_zero_iff_of_nonneg fun u _ => ((hwf u).nonneg b).2 (hhold u)).1
      (by rw [stampOf_eq_zero hregs] at ht; omega) u (Finset.mem_univ u)
  exact ⟨hhold, hthold, hw, by omega, hregs⟩

omit [DecidableEq ρ] in
/-- `IncrementCounter`. No block is dropped while some operation is publishing it. -/
theorem Lifetime.count (h : Lifetime m ops ext) {i : Instr} {ds dt : Int}
    (hop : (ops t).todo = i :: l) (hadds : i.adds = some (b, ds, dt))
    (hkeep : m.strong b + ds = 0 → m.transient b + dt = 0 → ∀ u, (ops u).window b = 0) :
    Lifetime (m.count b ds dt)
      (Function.update ops t ⟨(ops t).pc, (m.count b ds dt).dropped b ++ l⟩) ext := by
  have hwf : WFFrom (ops t).pc (i :: l) := by have := h.wf t; rwa [Op.WF, hop] at this
  have hi : i = .inc b ds dt ∨ i = .pub b ∧ ds = 1 ∧ dt = 0 := by
    cases i <;> simp_all [Instr.adds]
  -- the block is owned, hence alive
  have hlive : b < m.allocs ∧ given m ops b = 0 := by
    have htouch := hwf.1
    have heq : (⟨(ops t).pc, i :: l⟩ : Op ρ) = ops t := by rw [← hop]
    rw [heq] at htouch
    refine h.of_owned (t := t) ?_
    rcases hi with rfl | ⟨rfl, -, -⟩
    · exact htouch.imp_right .inl
    · exact .inl htouch
  have hstrong : (m.count b ds dt).strong b = m.strong b + ds := update_self ..
  have htrans : (m.count b ds dt).transient b = m.transient b + dt := update_self ..
  have hother : ∀ c, c ≠ b → (m.count b ds dt).strong c = m.strong c ∧
      (m.count b ds dt).transient c = m.transient c := fun c hc =>
    ⟨update_of_ne hc .., update_of_ne hc ..⟩
  -- what the operation owns afterwards
  generalize hop' : (⟨(ops t).pc, (m.count b ds dt).dropped b ++ l⟩ : Op ρ) = op'
  have howns : ∀ c, op'.hold c + (ops t).window c = (ops t).hold c + op'.window c + (if b = c then ds else 0) ∧
      op'.thold c = (ops t).thold c + (if b = c then dt else 0) ∧ op'.window c ≤ (ops t).window c ∧
      op'.dels c = (ops t).dels c +
        if (m.strong b + ds = 0 ∧ m.transient b + dt = 0) ∧ b = c then 1 else 0 := by
    intro c
    obtain ⟨d1, d2, d3, d4⟩ := dropped_lists (m.count b ds dt) b c
    rw [hstrong, htrans] at d4
    subst hop'
    rcases hi with rfl | ⟨rfl, rfl, rfl⟩
    · simp only [Op.hold, Op.thold, Op.window, Op.dels, hop, dstrong_append, dtransient_append,
        window_append, dels_append, d1, d2, d3, d4, dstrong, dtransient, SharedPtr.window,
        SharedPtr.dels]
      omega
    · have h1 : is (some b) c = if b = c then 1 else 0 := by simp [is]
      have h2 := is_nonneg (some b) c
      simp only [Op.hold, Op.thold, Op.window, Op.dels, hop, dstrong_append, dtransient_append,
        window_append, dels_append, d1, d2, d3, d4, dstrong, dtransient, SharedPtr.window,
        SharedPtr.dels, ← h1, ite_self]
      omega
  have hwf' : op'.WF := by
    subst hop'
    simp only [Op.WF, Mem.dropped]
    split
    · refine ⟨trivial, fun c => ?_, hwf.2.2⟩
      exact (show Op.WF ⟨(ops t).pc, l⟩ from hwf.2.2).nonneg c
    · exact hwf.2.2
  have hpc' : op'.pc = (ops t).pc := by rw [← hop']
  have hwfs : ∀ u, (Function.update ops t op' u).WF := fun u => by
    by_cases hu : u = t
    · subst hu; rw [update_self]; exact hwf'
    · rw [update_of_ne hu]; exact h.wf u
  have hsum : ∀ c, (m.count b ds dt).strong c + ∑ u, (Function.update ops t op' u).window c =
      ∑ u, (Function.update ops t op' u).hold c + ext c + (m.count b ds dt).regs c := by
    intro c
    have h1 := Threads.sum_update_add (fun op : Op ρ => op.window c) ops t op'
    have h2 := Threads.sum_update_add (fun op : Op ρ => op.hold c) ops t op'
    have h3 := h.strong c
    have h4 := (howns c).1
    have h5 : (m.count b ds dt).regs c = m.regs c := rfl
    by_cases hc : c = b
    · subst hc; simp only [if_true] at h4; omega
    · have := (hother c hc).1
      rw [if_neg (fun e => hc e.symm)] at h4
      omega
  have hsumt : ∀ c, (m.count b ds dt).transient c + (m.count b ds dt).stamps c =
      ∑ u, (Function.update ops t op' u).thold c := by
    intro c
    have h1 := Threads.sum_update_add (fun op : Op ρ => op.thold c) ops t op'
    have h3 := h.transient c
    have h4 := (howns c).2.1
    have h5 : (m.count b ds dt).stamps c = m.stamps c := rfl
    by_cases hc : c = b
    · subst hc; simp only [if_true] at h4; omega
    · have := (hother c hc).2
      rw [if_neg (fun e => hc e.symm)] at h4
      omega
  have hgiven : ∀ c, given (m.count b ds dt) (Function.update ops t op') c = given m ops c +
      if (m.strong b + ds = 0 ∧ m.transient b + dt = 0) ∧ b = c then 1 else 0 := by
    intro c
    have hd : (m.count b ds dt).deleted = m.deleted := rfl
    have h1 := given_update ops t op' hd c
    have h2 := (howns c).2.2.2
    omega
  refine ⟨h.words, fun u => ?_, hwfs, h.ext_nonneg, hsum, hsumt, fun c hc => ?_, fun c => ?_,
    fun c hc => ?_, fun c hc hg => ?_⟩
  · by_cases hu : u = t
    · subst hu; rw [update_self, hpc']; exact h.pcs u
    · rw [update_of_ne hu]; exact h.pcs u
  · have hc : m.allocs ≤ c := hc
    rw [hgiven, h.fresh c hc, if_neg (by rintro ⟨-, rfl⟩; omega)]
  · have := h.once c
    rw [hgiven]
    split
    · rename_i hz
      obtain ⟨-, rfl⟩ := hz
      omega
    · omega
  · have hc : m.allocs ≤ c ∨ given (m.count b ds dt) (Function.update ops t op') c = 1 := hc
    by_cases hcb : c = b
    · subst hcb
      rw [hgiven, hlive.2] at hc
      have hz : m.strong c + ds = 0 ∧ m.transient c + dt = 0 := by
        rcases hc with hc | hc
        · omega
        · by_contra hn
          rw [if_neg (fun h => hn h.1)] at hc
          omega
      have hwin := hkeep hz.1 hz.2
      refine Unused.of_zero hwfs h.ext_nonneg (hsum c) (hsumt c) (by rw [hstrong, hz.1])
        (by rw [htrans, hz.2]) fun u => ?_
      by_cases hu : u = t
      · subst hu
        rw [update_self]
        have h1 := (howns c).2.2.1
        have h2 := window_nonneg op'.todo c
        have h3 := hwin u
        have h4 : op'.window c = window op'.todo c := rfl
        omega
      · rw [update_of_ne hu]; exact hwin u
    · rw [hgiven, if_neg (fun e => hcb e.2.symm), Nat.add_zero] at hc
      have hu := h.unused c hc
      obtain ⟨o1, o2, o3, -⟩ := howns c
      rw [if_neg (fun e => hcb e.symm)] at o1 o2
      have o4 := window_nonneg op'.todo c
      have o5 : op'.window c = window op'.todo c := rfl
      have o6 := hu.hold t
      have o7 := hu.thold t
      have o8 := hu.window t
      refine ⟨fun u => ?_, fun u => ?_, fun u => ?_, hu.ext, hu.regs⟩
      · by_cases hut : u = t
        · subst hut; rw [update_self]; omega
        · rw [update_of_ne hut]; exact hu.hold u
      · by_cases hut : u = t
        · subst hut; rw [update_self]; omega
        · rw [update_of_ne hut]; exact hu.thold u
      · by_cases hut : u = t
        · subst hut; rw [update_self]; omega
        · rw [update_of_ne hut]; exact hu.window u
  · rw [hgiven] at hg
    by_cases hcb : c = b
    · subst hcb
      rw [hstrong, htrans]
      by_contra hn
      rw [not_or, not_not, not_not] at hn
      rw [if_pos ⟨hn, rfl⟩] at hg
      omega
    · rw [(hother c hcb).1, (hother c hcb).2]
      exact h.live c hc (by omega)

omit [DecidableEq ρ] in
/-- `delete`: the operation takes over the handle `n` in the object. -/
theorem Lifetime.del (h : Lifetime m ops ext) (hop : (ops t).todo = .del b :: l) {n : Handle}
    (hext : ∀ c, ext c = ext' c + is n c) (hext' : ∀ c, 0 ≤ ext' c) :
    Lifetime (m.delete b) (Function.update ops t ⟨(ops t).pc, incs n (-1) 0 ++ l⟩) ext' := by
  have hwf : WFFrom (ops t).pc (.del b :: l) := by have := h.wf t; rwa [Op.WF, hop] at this
  generalize hop' : (⟨(ops t).pc, incs n (-1) 0 ++ l⟩ : Op ρ) = op'
  have howns : ∀ c, op'.hold c = (ops t).hold c + is n c ∧ op'.thold c = (ops t).thold c ∧
      op'.window c = (ops t).window c ∧ op'.dels c + (if b = c then 1 else 0) = (ops t).dels c := by
    intro c
    subst hop'
    simp [Op.hold, Op.thold, Op.window, Op.dels, hop, dstrong, dtransient, SharedPtr.window,
      SharedPtr.dels]
    omega
  have hwf' : op'.WF := by
    subst hop'
    have hnn := hwf.2.1
    simp only [Op.hold, Op.thold, dstrong, dtransient] at hnn
    change WFFrom (ops t).pc (incs n (-1) 0 ++ l)
    refine wfFrom_incs hwf.2.2 (fun c _ => .inl ?_) fun c => ?_
    · have := (hnn c).1; omega
    · have := hnn c
      have := is_nonneg n c
      omega
  have hpc' : op'.pc = (ops t).pc := by rw [← hop']
  have hgiven : ∀ c, given (m.delete b) (Function.update ops t op') c = given m ops c := by
    intro c
    have h1 := Threads.sum_update_add (fun op : Op ρ => op.dels c) ops t op'
    have h2 := (howns c).2.2.2
    simp only [given, Mem.delete, List.count_cons, beq_iff_eq]
    omega
  refine ⟨h.words, fun u => ?_, fun u => ?_, hext', fun c => ?_, fun c => ?_, fun c hc => ?_,
    fun c => ?_, fun c hc => ?_, fun c hc hg => ?_⟩
  · by_cases hu : u = t
    · subst hu; rw [update_self, hpc']; exact h.pcs u
    · rw [update_of_ne hu]; exact h.pcs u
  · by_cases hu : u = t
    · subst hu; rw [update_self]; exact hwf'
    · rw [update_of_ne hu]; exact h.wf u
  · have h1 := Threads.sum_update_add (fun op : Op ρ => op.window c) ops t op'
    have h2 := Threads.sum_update_add (fun op : Op ρ => op.hold c) ops t op'
    have h3 := h.strong c
    have h4 := howns c
    have h5 := hext c
    have h6 : (m.delete b).regs c = m.regs c := rfl
    have h7 : (m.delete b).strong c = m.strong c := rfl
    omega
  · have h1 := Threads.sum_update_add (fun op : Op ρ => op.thold c) ops t op'
    have h3 := h.transient c
    have h4 := (howns c).2.1
    have h6 : (m.delete b).stamps c = m.stamps c := rfl
    have h7 : (m.delete b).transient c = m.transient c := rfl
    omega
  · rw [hgiven]; exact h.fresh c hc
  · rw [hgiven]; exact h.once c
  · rw [hgiven] at hc
    have hu := h.unused c hc
    obtain ⟨o1, o2, o3, -⟩ := howns c
    have h1 := hext c
    have h2 := hext' c
    have h3 := is_nonneg n c
    rw [hu.ext] at h1
    have o4 := hu.hold t
    have o5 := hu.thold t
    have o6 := hu.window t
    refine ⟨fun u => ?_, fun u => ?_, fun u => ?_, by omega, hu.regs⟩
    · by_cases hut : u = t
      · subst hut; rw [update_self]; omega
      · rw [update_of_ne hut]; exact hu.hold u
    · by_cases hut : u = t
      · subst hut; rw [update_self]; omega
      · rw [update_of_ne hut]; exact hu.thold u
    · by_cases hut : u = t
      · subst hut; rw [update_self]; omega
      · rw [update_of_ne hut]; exact hu.window u
  · rw [hgiven] at hg; exact h.live c hc hg

omit [DecidableEq ρ] [DecidableEq ι] in
/-- A new block, with one handle to it. -/
theorem Lifetime.make (h : Lifetime m ops ext) (hext : ∀ c, ext' c = ext c + is (some m.allocs) c) :
    Lifetime m.make ops ext' := by
  have hu := h.unused m.allocs (.inl (le_refl _))
  have hother : ∀ c, c ≠ m.allocs → m.make.strong c = m.strong c := fun c hc => update_of_ne hc ..
  have hself : m.make.strong m.allocs = 1 := update_self ..
  have hzero : m.strong m.allocs = 0 := by
    have h1 := h.strong m.allocs
    rw [Finset.sum_eq_zero fun u _ => hu.window u, Finset.sum_eq_zero fun u _ => hu.hold u, hu.ext,
      hu.regs] at h1
    omega
  have hne : ∀ c, c ≠ m.allocs → is (some m.allocs) c = 0 := fun c hc => is_some_ne fun e => hc e.symm
  refine ⟨h.words, h.pcs, h.wf, fun c => ?_, fun c => ?_, h.transient, fun c hc => ?_, h.once,
    fun c hc => ?_, fun c hc hg => ?_⟩
  · have := h.ext_nonneg c
    have := is_nonneg (some m.allocs) c
    rw [hext]; omega
  · have h1 := h.strong c
    have h2 : m.make.regs c = m.regs c := rfl
    rw [h2, hext]
    by_cases hc : c = m.allocs
    · subst hc; rw [hself, is_self]; omega
    · rw [hother c hc, hne c hc]; omega
  · have hc : m.allocs + 1 ≤ c := hc
    exact h.fresh c (by omega)
  · have hc : m.allocs + 1 ≤ c ∨ given m ops c = 1 := hc
    have hca : c ≠ m.allocs := by
      rintro rfl
      have := h.fresh m.allocs (le_refl _)
      omega
    have hu := h.unused c (by omega)
    exact ⟨hu.hold, hu.thold, hu.window, by rw [hext, hu.ext, hne c hca]; rfl, hu.regs⟩
  · have hc : c < m.allocs + 1 := hc
    by_cases hca : c = m.allocs
    · subst hca; rw [hself]; left; omega
    · rw [hother c hca]; exact h.live c (by omega) hg

/-! ### The window after a publishing CAS -/

/-- Only the next instruction may be the increment of a published `desired`. -/
def Op.PubFirst (op : Op ρ) : Prop := ∀ b, Instr.pub b ∉ op.todo.tail

omit [Fintype ρ] [Fintype ι] [DecidableEq ρ] [DecidableEq ι] in
/-- The operation owns a reference to the block it has published. -/
theorem Op.PubFirst.window_le_hold {op : Op ρ} (hp : op.PubFirst) (hwf : op.WF) (b : Nat) :
    op.window b ≤ op.hold b := by
  obtain ⟨pc, todo⟩ := op
  have hn := (hwf.nonneg b).1
  cases todo with
  | nil => exact hn
  | cons i l =>
    have hl : SharedPtr.window l b = 0 := window_eq_zero (hp b)
    cases i with
    | pub c =>
      have hc : 1 ≤ Op.hold ⟨pc, .pub c :: l⟩ c := hwf.1
      simp only [Op.window, SharedPtr.window, hl, Int.add_zero]
      by_cases hcb : c = b
      · subst hcb; rw [is_self]; exact hc
      · rw [is_some_ne hcb]; exact hn
    | inc c ds dt => simp only [Op.window, SharedPtr.window, hl]; exact hn
    | del c => simp only [Op.window, SharedPtr.window, hl]; exact hn

omit [DecidableEq ρ] [DecidableEq ι] in
theorem Lifetime.strong_pos (h : Lifetime m ops ext) (hp : ∀ u, (ops u).PubFirst) (hb : 1 ≤ ext b) :
    1 ≤ m.strong b := by
  have h1 : ∑ u, (ops u).window b ≤ ∑ u, (ops u).hold b :=
    Finset.sum_le_sum fun u _ => (hp u).window_le_hold (h.wf u) b
  have h2 := h.strong b
  have h3 := m.regs_nonneg b
  omega

omit [DecidableEq ρ] in
/-- A block of which somebody has a handle whenever an operation is publishing it is not dropped
then. -/
theorem Lifetime.keeps (h : Lifetime m ops ext) (hp : ∀ u, (ops u).PubFirst) {i : Instr} {ds dt : Int}
    (hop : (ops t).todo = i :: l) (hadds : i.adds = some (b, ds, dt))
    (hcover : ∀ u, Instr.pub b ∈ (ops u).todo → 1 ≤ ext b) (hs : m.strong b + ds = 0) (u : ι) :
    (ops u).window b = 0 := by
  by_contra hw
  have hext : 1 ≤ ext b := by
    refine hcover u ?_
    by_contra hn
    exact hw (window_eq_zero hn)
  -- the operation without the instruction
  have hwf : WFFrom (ops t).pc (i :: l) := by have := h.wf t; rwa [Op.WF, hop] at this
  have hl : SharedPtr.window l b = 0 := window_eq_zero (by have := hp t b; rwa [hop] at this)
  generalize hop' : (⟨(ops t).pc, l⟩ : Op ρ) = op'
  have hwf' : op'.WF := by subst hop'; exact hwf.2.2
  have howns : op'.window b = 0 ∧
      op'.hold b + (ops t).window b = (ops t).hold b + ds := by
    subst hop'
    refine ⟨hl, ?_⟩
    cases i with
    | inc c ds' dt' =>
      simp only [Instr.adds, Option.some.injEq, Prod.mk.injEq] at hadds
      obtain ⟨rfl, rfl, -⟩ := hadds
      simp only [Op.hold, Op.window, hop, dstrong, SharedPtr.window, if_true, hl]
      omega
    | pub c =>
      simp only [Instr.adds, Option.some.injEq, Prod.mk.injEq] at hadds
      obtain ⟨rfl, rfl, -⟩ := hadds
      simp only [Op.hold, Op.window, hop, dstrong, SharedPtr.window, is_self, hl]
      omega
    | del c => cases hadds
  have hle : ∑ u, (Function.update ops t op' u).window b ≤ ∑ u, (Function.update ops t op' u).hold b := by
    refine Finset.sum_le_sum fun u _ => ?_
    by_cases hu : u = t
    · subst hu
      rw [update_self, howns.1]
      exact (hwf'.nonneg b).1
    · rw [update_of_ne hu]
      exact (hp u).window_le_hold (h.wf u) b
  have h1 := Threads.sum_update_add (fun op : Op ρ => op.window b) ops t op'
  have h2 := Threads.sum_update_add (fun op : Op ρ => op.hold b) ops t op'
  have h3 := h.strong b
  have h4 := m.regs_nonneg b
  omega

omit [DecidableEq ρ] [DecidableEq ι] in
/-- Copying a handle that is outside the operations. -/
theorem Lifetime.share (h : Lifetime m ops ext) (hp : ∀ u, (ops u).PubFirst) (hb : 1 ≤ ext b)
    (hext : ∀ c, ext' c = ext c + is (some b) c) :
    (m.count b 1 0).dropped b = [] ∧ Lifetime (m.count b 1 0) ops ext' := by
  have hpos := h.strong_pos hp hb
  have hself : (m.count b 1 0).strong b = m.strong b + 1 := update_self ..
  have hother : ∀ c, c ≠ b → (m.count b 1 0).strong c = m.strong c := fun c hc => update_of_ne hc ..
  have htrans : (m.count b 1 0).transient = m.transient := by
    funext c
    by_cases hc : c = b
    · subst hc; simp [Mem.count]
    · exact update_of_ne hc ..
  refine ⟨if_neg fun e => ?_, ?_⟩
  · rw [hself] at e
    omega
  · refine ⟨h.words, h.pcs, h.wf, fun c => ?_, fun c => ?_, fun c => ?_, h.fresh, h.once, fun c hc => ?_,
      fun c hc hg => ?_⟩
    · have := h.ext_nonneg c
      have := is_nonneg (some b) c
      rw [hext]; omega
    · have h1 := h.strong c
      have h2 : (m.count b 1 0).regs c = m.regs c := rfl
      rw [h2, hext]
      by_cases hc : c = b
      · subst hc; rw [hself, is_self]; omega
      · rw [hother c hc, is_some_ne fun e => hc e.symm]; omega
    · rw [htrans]; exact h.transient c
    · have hu := h.unused c hc
      have hcb : b ≠ c := by
        rintro rfl
        have := hu.ext
        omega
      exact ⟨hu.hold, hu.thold, hu.window, by rw [hext, hu.ext, is_some_ne hcb]; rfl, hu.regs⟩
    · rw [htrans]
      by_cases hcb : c = b
      · subst hcb; rw [hself]; left; omega
      · rw [hother c hcb]; exact h.live c hc hg

/-! ### What it says -/

omit [Fintype ρ] [DecidableEq ρ] [DecidableEq ι] in
theorem not_deleted (hg : given m ops b = 0) : b ∉ m.deleted := by
  intro hd
  have := List.count_pos_iff.2 hd
  simp only [given] at hg
  omega

omit [DecidableEq ρ] [DecidableEq ι] in
/-- No step touches a deleted block. -/
theorem Lifetime.touches (h : Lifetime m ops ext) (hb : (ops t).touches = some b) :
    b ∉ m.deleted := by
  have hwf := h.wf t
  cases htodo : (ops t).todo with
  | nil => simp [Op.touches, htodo] at hb
  | cons i l =>
    rw [Op.WF, htodo] at hwf
    have heq : (⟨(ops t).pc, i :: l⟩ : Op ρ) = ops t := by rw [← htodo]
    have htouch := hwf.1
    rw [heq] at htouch
    simp only [Op.touches, htodo, List.head?_cons, Option.map_some, Option.some.injEq] at hb
    cases i with
    | inc c ds dt =>
      obtain rfl : c = b := hb
      exact not_deleted (h.of_owned (t := t) (htouch.imp_right .inl)).2
    | pub c =>
      obtain rfl : c = b := hb
      exact not_deleted (h.of_owned (t := t) (.inl htouch)).2
    | del c =>
      obtain rfl : c = b := hb
      intro hd
      have h1 := List.count_pos_iff.2 hd
      have h2 : 1 ≤ (ops t).dels c := by simp [Op.dels, htodo, SharedPtr.dels]
      have h3 := Threads.le_sum (fun u => (ops u).dels c) t
      have h4 := h.once c
      simp only [given] at h4
      omega

omit [DecidableEq ρ] [DecidableEq ι] in
theorem Lifetime.deleted_nodup (h : Lifetime m ops ext) : m.deleted.Nodup := by
  rw [List.nodup_iff_count_le_one]
  intro b
  have := h.once b
  simp only [given] at this
  omega

omit [DecidableEq ρ] [DecidableEq ι] in
/-- A block that is not deleted is referred to. -/
theorem Lifetime.referred (h : Lifetime m ops ext) (hb : b < m.allocs) (hd : b ∉ m.deleted) :
    0 < ext b ∨ 0 < m.regs b ∨ ∃ t, (ops t).hold b ≠ 0 ∨ (ops t).thold b ≠ 0 ∨ (ops t).window b ≠ 0 ∨
      (ops t).dels b ≠ 0 := by
  by_contra hn
  rw [not_or, not_or, not_exists] at hn
  obtain ⟨h1, h2, h3⟩ := hn
  have he := h.ext_nonneg b
  have hr := m.regs_nonneg b
  have hops : ∀ t, (ops t).hold b = 0 ∧ (ops t).thold b = 0 ∧ (ops t).window b = 0 ∧
      (ops t).dels b = 0 := fun t => by
    have := h3 t
    tauto
  have hg : given m ops b = 0 := by
    rw [given, Finset.sum_eq_zero fun t _ => (hops t).2.2.2, List.count_eq_zero.2 hd]; rfl
  have hs := h.strong b
  have ht := h.transient b
  rw [Finset.sum_eq_zero fun t _ => (hops t).2.2.1, Finset.sum_eq_zero fun t _ => (hops t).1] at hs
  rw [Finset.sum_eq_zero fun t _ => (hops t).2.1, stampOf_eq_zero (by omega)] at ht
  have := h.live b hb hg
  omega

end

end SharedPtr
