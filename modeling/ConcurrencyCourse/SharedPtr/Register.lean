import ConcurrencyCourse.SharedPtr.Handles

/-!
# `AtomicSharedPtr` as an atomic register

The register holds a control block; it should change only when a `Store` or a successful
`CompareExchangeWeak` writes it (`writes`), and a `Load` should return what it held at some moment of
the call. The references that `AcquireTransientRef` has taken and nobody has returned are split
between the stamps and the transient counters of the blocks: their sum must be what the
operations own.

When the stamp passes 64000, `Load` writes the word with a plain `Store` of the pair it acquired
some steps ago (shared_ptr.hpp 249-253), whatever the word is by then: `overflow_undoes_store` is a run
in which this brings back a block that another thread has just replaced. `register_of_careful` shows
that this and the wrap of a stamp at 65536 are the only ways to fail.
-/

namespace SharedPtr

open Transition StampedPtr Function

variable {ρ ι : Type} [DecidableEq ρ] [DecidableEq ι]

/-- The write of a step to the register: by the `Exchange` of a `Store` or by a successful CAS. -/
def writes (s : State ρ ι) : Act ρ ι → Option (ρ × Handle)
  | .go t spurious => match (s.ops t).todo, (s.ops t).pc with
    | [], .exchange r target => some (r, target)
    | [], .casTry r w exp des =>
      if spurious = false ∧ s.mem.reg r = (StampedPtr.mk exp w.stamp).packed then some (r, des) else none
    | _, _ => none
  | _ => none

/-- The register after a write. -/
def written (x : Option (ρ × Handle)) (r : ρ) (old : Handle) : Handle :=
  match x with
  | some (r', h) => if r' = r then h else old
  | none => old

/-- The actions that begin a call of thread `t`. -/
def Begins (t : ι) : Act ρ ι → Bool
  | .copy u _ | .reset u _ | .load u _ | .store u _ _ | .compareExchangeWeak u _ _ _ => u = t
  | .makeShared _ | .move _ _ _ | .go _ _ | .ret _ => false

/-- The call that thread `t` has begun last. -/
def lastCall (t : ι) (h : History (State ρ ι) (Act ρ ι)) : Option (Act ρ ι) :=
  (h.map Prod.fst).find? (Begins t)

/-- The register held `e` at some moment of the current call of thread `t`. -/
def Held (t : ι) (r : ρ) (e : Handle) (h : History (State ρ ι) (Act ρ ι)) (s : State ρ ι) : Prop :=
  During (fun a => Begins t a = true) (fun s => (s.mem.reg r).raw = e) h s

/-- In every run of such steps: a register changes exactly by the writes, a `Load` and a failed
`CompareExchangeWeak` return what the register held at some moment of the call, and the transient
references of each block are accounted for. -/
def AtomicRegister [Fintype ρ] [Fintype ι] (ok : State ρ ι → Act ρ ι → Prop) : Prop :=
  ∀ h s, Run (system ρ ι) ok h s →
    (∀ a s', ok s a → step s a = some s' → ∀ r,
      (s'.mem.reg r).raw = written (writes s a) r (s.mem.reg r).raw) ∧
    (∀ t e, (s.ops t).pc = .done (.loaded e) →
      ∃ r, lastCall t h = some (.load t r) ∧ Held t r e h s) ∧
    (∀ t e, (s.ops t).pc = .done (.cas false e) →
      ∃ r exp des, lastCall t h = some (.compareExchangeWeak t r exp des) ∧ Held t r e h s) ∧
    ∀ b, s.mem.transient b + s.mem.stamps b = ∑ t, (s.ops t).thold b

/-- No CAS is to increment a stamp of 65535, and the `Store` in `Load` finds the pair that the `Load`
acquired. -/
def Careful (s : State ρ ι) : Act ρ ι → Prop
  | .go t _ => (s.ops t).todo = [] → (s.ops t).pc.Careful s.mem
  | _ => True

/-! ## What a call returns -/

section calls

variable {h : History (State ρ ι) (Act ρ ι)} {s s' : State ρ ι} {a : Act ρ ι} {t : ι}

/-- Whose result a `Load` on `r` is. -/
def RetCall (t : ι) (r : ρ) (h : History (State ρ ι) (Act ρ ι)) : Ret → Prop
  | .value => lastCall t h = some (.load t r)
  | .casFail _ _ _ => ∃ exp des, lastCall t h = some (.compareExchangeWeak t r exp des)

def ContCall (t : ι) (r : ρ) (h : History (State ρ ι) (Act ρ ι)) : Cont → Prop
  | .load ret => RetCall t r h ret
  | .cas _ _ => ∃ exp des, lastCall t h = some (.compareExchangeWeak t r exp des)

/-- The call a thread is in, and what the register held during it. -/
def CallOk (t : ι) (h : History (State ρ ι) (Act ρ ι)) (s : State ρ ι) : Pc ρ → Prop
  | .acqLoad r k | .acqCas r k _ => ContCall t r h k
  | .loadEnd r w ret | .loadStore r w ret => RetCall t r h ret ∧ Held t r w.raw h s
  | .casTry r _ _ _ => ∃ exp des, lastCall t h = some (.compareExchangeWeak t r exp des)
  | .done (.loaded e) => ∃ r, lastCall t h = some (.load t r) ∧ Held t r e h s
  | .done (.cas false e) =>
    ∃ r exp des, lastCall t h = some (.compareExchangeWeak t r exp des) ∧ Held t r e h s
  | _ => True

omit [DecidableEq ρ] in
theorem lastCall_later (ha : Begins t a = false) : lastCall t ((a, s) :: h) = lastCall t h := by
  simp [lastCall, ha]

omit [DecidableEq ρ] in
theorem lastCall_begin (ha : Begins t a = true) : lastCall t ((a, s) :: h) = some a := by
  simp [lastCall, ha]

omit [DecidableEq ρ] in
theorem Held.later {r : ρ} {e : Handle} (hh : Held t r e h s) (ha : Begins t a = false) :
    Held t r e ((a, s) :: h) s' :=
  During.later hh (by simp [ha])

omit [DecidableEq ρ] in
theorem RetCall.later {r : ρ} {ret : Ret} (hr : RetCall t r h ret) (ha : Begins t a = false) :
    RetCall t r ((a, s) :: h) ret := by
  cases ret <;> simpa [RetCall, lastCall_later ha] using hr

omit [DecidableEq ρ] in
theorem ContCall.later {r : ρ} {k : Cont} (hr : ContCall t r h k) (ha : Begins t a = false) :
    ContCall t r ((a, s) :: h) k := by
  cases k with
  | load ret => exact RetCall.later hr ha
  | cas exp des => simpa [ContCall, lastCall_later ha] using hr

omit [DecidableEq ρ] in
/-- A step that does not begin a call keeps what is known about the current one. -/
theorem CallOk.later {pc : Pc ρ} (hc : CallOk t h s pc) (ha : Begins t a = false) :
    CallOk t ((a, s) :: h) s' pc := by
  cases pc with
  | acqLoad r k | acqCas r k curr => exact ContCall.later hc ha
  | loadEnd r w ret | loadStore r w ret => exact ⟨hc.1.later ha, hc.2.later ha⟩
  | casTry r w exp des => simpa [CallOk, lastCall_later ha] using hc
  | idle | exchange r target => trivial
  | done res =>
    match res, hc with
    | .loaded e, ⟨r, h1, h2⟩ => exact ⟨r, by rw [lastCall_later ha]; exact h1, h2.later ha⟩
    | .cas false e, ⟨r, exp, des, h1, h2⟩ =>
      exact ⟨r, exp, des, by rw [lastCall_later ha]; exact h1, h2.later ha⟩
    | .cas true e, _ => trivial
    | .unit, _ => trivial
    | .copied b, _ => trivial

omit [DecidableEq ρ] in
/-- At the moment of the acquisition the register held the acquired block. -/
theorem acquired_callOk {r : ρ} {w : StampedPtr Nat} {k : Cont} (hk : ContCall t r h k)
    (hw : Held t r w.raw h s) : CallOk t h s (acquired r w k).pc := by
  cases k with
  | load ret => exact ⟨hk, hw⟩
  | cas exp des =>
    simp only [acquired]
    split
    · obtain ⟨exp', des', h1⟩ := hk
      exact ⟨r, exp', des', h1, hw⟩
    · exact hk

omit [DecidableEq ρ] in
theorem acquireLoop_callOk {r : ρ} {w : StampedPtr Nat} {k : Cont} (hk : ContCall t r h k)
    (hw : Held t r w.raw h s) : CallOk t h s (acquireLoop r k w).pc := by
  unfold acquireLoop
  split
  · exact acquired_callOk hk hw
  · exact hk

omit [DecidableEq ρ] in
theorem loadRet_callOk {r : ρ} {e : Handle} {ret : Ret} (hr : RetCall t r h ret) (he : Held t r e h s) :
    CallOk t h s (loadRet e ret : Op ρ).pc := by
  cases ret with
  | value => exact ⟨r, hr, he⟩
  | casFail exp old des =>
    obtain ⟨exp', des', h1⟩ := hr
    exact ⟨r, exp', des', h1, he⟩

/-- The thread's own steps. -/
theorem opStep_callOk {sp : Bool} {m' : Mem ρ} {op' : Op ρ}
    (hc : CallOk t h s (s.ops t).pc) (hs : opStep noInner s.mem sp (s.ops t) = some (m', op')) :
    CallOk t ((.go t sp, s) :: h) s' op'.pc := by
  have ha : Begins t (.go t sp : Act ρ ι) = false := rfl
  have hnow : ∀ {r : ρ} {w : StampedPtr Nat}, (s.mem.reg r).raw = w.raw →
      Held t r w.raw ((.go t sp, s) :: h) s' := fun hw => Held.later (During.now hw) ha
  unfold opStep at hs
  split at hs
  · cases hpc : (s.ops t).pc <;> rw [hpc] at hs hc <;> simp only [pcStep, reduceCtorEq] at hs
    case acqLoad r k =>
      simp only [Option.some.injEq, Prod.mk.injEq] at hs
      obtain ⟨-, rfl⟩ := hs
      exact acquireLoop_callOk (ContCall.later hc ha) (hnow rfl)
    case acqCas r k curr =>
      split at hs <;> simp only [Option.some.injEq, Prod.mk.injEq] at hs <;> obtain ⟨-, rfl⟩ := hs
      · rename_i hcas
        exact acquired_callOk (ContCall.later hc ha) (hnow (by rw [hcas.2]; rfl))
      · exact acquireLoop_callOk (ContCall.later hc ha) (hnow rfl)
    case loadEnd r w ret =>
      simp only [Option.some.injEq, Prod.mk.injEq] at hs
      obtain ⟨-, rfl⟩ := hs
      split
      · exact ⟨hc.1.later ha, hc.2.later ha⟩
      · exact loadRet_callOk (hc.1.later ha) (hc.2.later ha)
    case loadStore r w ret =>
      simp only [Option.some.injEq, Prod.mk.injEq] at hs
      obtain ⟨-, rfl⟩ := hs
      exact loadRet_callOk (hc.1.later ha) (hc.2.later ha)
    case exchange r target =>
      simp only [Option.some.injEq, Prod.mk.injEq] at hs
      obtain ⟨-, rfl⟩ := hs
      trivial
    case casTry r w exp des =>
      split at hs <;> simp only [Option.some.injEq, Prod.mk.injEq] at hs <;> obtain ⟨-, rfl⟩ := hs
      · trivial
      · obtain ⟨exp', des', h1⟩ := hc
        exact ⟨exp', des', by rw [lastCall_later ha]; exact h1⟩
  all_goals
    simp only [Option.some.injEq, Prod.mk.injEq] at hs
    obtain ⟨-, rfl⟩ := hs
    exact hc.later ha

end calls

/-! ## The writes -/

section writes

variable {s s' : State ρ ι} {a : Act ρ ι} {t : ι}

omit [DecidableEq ι] in
theorem reg_setReg (m : Mem ρ) (r r' : ρ) (w : StampedPtr Nat) :
    ((m.setReg r w).reg r').raw = if r = r' then w.raw else (m.reg r').raw := by
  by_cases hr : r = r'
  · subst hr; simp [Mem.setReg]
  · rw [if_neg hr, Mem.setReg]
    simp only
    rw [update_of_ne fun e => hr e.symm]

/-- A step changes a register only by a write. -/
theorem reg_step (hc : Careful s a) (hs : step s a = some s') (r : ρ) :
    (s'.mem.reg r).raw = written (writes s a) r (s.mem.reg r).raw := by
  have hcall : ∀ {t : ι} {op : Op ρ} {bag : Option (List Nat)}, s.call t op bag = some s' →
      s'.mem = s.mem := by
    intro t op bag h
    unfold State.call at h
    split at h
    · obtain ⟨l, -, rfl⟩ := Option.map_eq_some_iff.1 h
      rfl
    · cases h
  cases a with
  | makeShared t =>
    simp only [step] at hs
    split at hs
    · obtain rfl := Option.some.inj hs; rfl
    · cases hs
  | move t u b => obtain ⟨l, -, rfl⟩ := Option.map_eq_some_iff.1 hs; rfl
  | copy t b => rw [hcall hs]; rfl
  | reset t b => rw [hcall hs]; rfl
  | load t r' => rw [hcall hs]; rfl
  | store t r' target => rw [hcall hs]; rfl
  | compareExchangeWeak t r' exp des => rw [hcall hs]; rfl
  | ret t =>
    simp only [step] at hs
    split at hs
    · obtain rfl := Option.some.inj hs; rfl
    · cases hs
  | go t sp =>
    obtain ⟨⟨m', op'⟩, hx, rfl⟩ := Option.map_eq_some_iff.1 hs
    unfold opStep at hx
    split at hx
    · rename_i htodo
      have hcar := hc htodo
      simp only [writes, htodo]
      cases hpc : (s.ops t).pc <;> rw [hpc] at hx hcar <;> simp only [pcStep, reduceCtorEq] at hx
      case acqLoad r' k =>
        simp only [Option.some.injEq, Prod.mk.injEq] at hx
        obtain ⟨rfl, -⟩ := hx
        rfl
      case acqCas r' k curr =>
        split at hx <;> simp only [Option.some.injEq, Prod.mk.injEq] at hx <;> obtain ⟨rfl, -⟩ := hx
        · rename_i hcas
          rw [reg_setReg]
          split
          · rename_i hr; subst hr; rw [hcas.2]; rfl
          · rfl
        · rfl
      case loadEnd r' w ret =>
        simp only [Option.some.injEq, Prod.mk.injEq] at hx
        obtain ⟨rfl, -⟩ := hx
        rfl
      case loadStore r' w ret =>
        simp only [Option.some.injEq, Prod.mk.injEq] at hx
        obtain ⟨rfl, -⟩ := hx
        have hreg : s.mem.reg r' = ⟨w.raw, w.stamp + limit⟩ := hcar
        rw [reg_setReg]
        split
        · rename_i hr; subst hr; rw [hreg]; rfl
        · rfl
      case exchange r' target =>
        simp only [Option.some.injEq, Prod.mk.injEq] at hx
        obtain ⟨rfl, -⟩ := hx
        exact reg_setReg _ _ _ _
      case casTry r' w exp des =>
        split at hx <;> simp only [Option.some.injEq, Prod.mk.injEq] at hx <;> obtain ⟨rfl, -⟩ := hx
        · rename_i hcas
          rw [reg_setReg]
          simp only [hcas, and_self, if_true, written]
        · rename_i hcas
          simp only [hcas, if_false, written]
    all_goals
      rename_i htodo
      simp only [Option.some.injEq, Prod.mk.injEq] at hx
      obtain ⟨rfl, -⟩ := hx
      simp only [writes, htodo]
      rfl

end writes

/-! ## Every run of careful steps -/

section runs

variable [Fintype ρ] [Fintype ι] {h : History (State ρ ι) (Act ρ ι)} {s s' : State ρ ι}
  {a : Act ρ ι} {t : ι}

structure RegInv (h : History (State ρ ι) (Act ρ ι)) (s : State ρ ι) : Prop where
  words : ∀ r, WordOk (s.mem.reg r)
  pcs : ∀ t, (s.ops t).pc.Ok
  idle : ∀ t, (s.ops t).pc = .idle → (s.ops t).todo = []
  transient : ∀ b, s.mem.transient b + s.mem.stamps b = ∑ t, (s.ops t).thold b
  calls : ∀ t, CallOk t h s (s.ops t).pc

omit [DecidableEq ρ] in
/-- A step of thread `t` that replaces its operation. -/
theorem RegInv.update (hi : RegInv h s) {m' : Mem ρ} {op' : Op ρ} {bag' : ι → List Nat}
    (hothers : ∀ u, u ≠ t → Begins u a = false) (hwords : ∀ r, WordOk (m'.reg r)) (hpc : op'.pc.Ok)
    (hidle : op'.pc = .idle → op'.todo = [])
    (hthold : ∀ b, m'.transient b + m'.stamps b + (s.ops t).thold b =
      s.mem.transient b + s.mem.stamps b + op'.thold b)
    (hcall : CallOk t ((a, s) :: h) ⟨m', Function.update s.ops t op', bag'⟩ op'.pc) :
    RegInv ((a, s) :: h) ⟨m', Function.update s.ops t op', bag'⟩ := by
  refine ⟨hwords, fun u => ?_, idle_update hi.idle hidle, fun b => ?_, fun u => ?_⟩
  · by_cases hu : u = t
    · subst hu; simp only [update_self]; exact hpc
    · simp only [update_of_ne hu]; exact hi.pcs u
  · have h1 := Threads.sum_update_add (fun op : Op ρ => op.thold b) s.ops t op'
    have h2 := hi.transient b
    have h3 := hthold b
    change m'.transient b + m'.stamps b = ∑ u, (Function.update s.ops t op' u).thold b
    omega
  · by_cases hu : u = t
    · subst hu; simp only [update_self]; exact hcall
    · simp only [update_of_ne hu]; exact (hi.calls u).later (hothers u hu)

omit [DecidableEq ρ] in
/-- The beginning of a call. -/
theorem RegInv.call (hi : RegInv h s) {op : Op ρ} {bag : Option (List Nat)}
    (hs : s.call t op bag = some s') (hothers : ∀ u, u ≠ t → Begins u a = false) (hpc : op.pc.Ok)
    (hidle : op.pc ≠ .idle) (hthold : ∀ b, op.thold b = 0)
    (hcall : ∀ s', CallOk t ((a, s) :: h) s' op.pc) : RegInv ((a, s) :: h) s' := by
  unfold State.call at hs
  split at hs
  · rename_i hpc'
    obtain ⟨l, -, rfl⟩ := Option.map_eq_some_iff.1 hs
    refine hi.update hothers hi.words hpc (fun e => absurd e hidle) (fun b => ?_) (hcall _)
    have h1 := (owns_of_todo_nil (hi.idle t hpc') b).2.1
    rw [hpc'] at h1
    rw [h1, hthold]
    rfl
  · cases hs

omit [DecidableEq ρ] in
/-- A step that leaves registers and operations alone. -/
theorem RegInv.frame (hi : RegInv h s) (hreg : s'.mem.reg = s.mem.reg)
    (htr : s'.mem.transient = s.mem.transient) (hops : s'.ops = s.ops)
    (ha : ∀ u, Begins u a = false) : RegInv ((a, s) :: h) s' := by
  have hst : s'.mem.stamps = s.mem.stamps := by funext b; simp only [Mem.stamps, hreg]
  refine ⟨by rw [hreg]; exact hi.words, by rw [hops]; exact hi.pcs, by rw [hops]; exact hi.idle, ?_, ?_⟩
  · rw [htr, hst, hops]; exact hi.transient
  · intro u
    rw [hops]
    exact (hi.calls u).later (ha u)

theorem regInv_step (hi : RegInv h s) (hc : Careful s a) (hs : step s a = some s') :
    RegInv ((a, s) :: h) s' := by
  have hne : ∀ {t u : ι}, u ≠ t → decide (t = u) = false := fun h => decide_eq_false fun e => h e.symm
  cases a with
  | makeShared t =>
    simp only [step] at hs
    split at hs
    · obtain rfl := Option.some.inj hs
      exact hi.frame rfl rfl rfl fun _ => rfl
    · cases hs
  | move t u b =>
    obtain ⟨l, -, rfl⟩ := Option.map_eq_some_iff.1 hs
    exact hi.frame rfl rfl rfl fun _ => rfl
  | copy t b =>
    exact hi.call hs (fun u hu => hne hu) trivial (by simp [Op.copy])
      (fun c => by simp [Op.thold, Op.copy, Pc.thold, dtransient]) fun _ => trivial
  | reset t b =>
    exact hi.call hs (fun u hu => hne hu) trivial (by simp [Op.reset])
      (fun c => by simp [Op.thold, Op.reset, Pc.thold, dtransient]) fun _ => trivial
  | load t r =>
    exact hi.call hs (fun u hu => hne hu) trivial (by simp [Op.load])
      (fun c => by simp [Op.thold, Op.load, Pc.thold, dtransient])
      fun _ => lastCall_begin (by simp [Begins])
  | store t r target =>
    exact hi.call hs (fun u hu => hne hu) trivial (by simp [Op.store])
      (fun c => by simp [Op.thold, Op.store, Pc.thold]) fun _ => trivial
  | compareExchangeWeak t r exp des =>
    exact hi.call hs (fun u hu => hne hu) trivial (by simp [Op.compareExchangeWeak])
      (fun c => by simp [Op.thold, Op.compareExchangeWeak, Pc.thold, dtransient])
      fun _ => ⟨exp, des, lastCall_begin (by simp [Begins])⟩
  | go t sp =>
    obtain ⟨⟨m', op'⟩, hx, rfl⟩ := Option.map_eq_some_iff.1 hs
    have hthold := opStep_thold (hi.pcs t) hc hx
    have hcall : CallOk t ((.go t sp, s) :: h) ⟨m', Function.update s.ops t op', s.bag⟩ op'.pc :=
      opStep_callOk (hi.calls t) hx
    have hok : (∀ r, WordOk (m'.reg r)) ∧ op'.pc.Ok := by
      unfold opStep at hx
      split at hx
      · rename_i htodo
        exact pcStep_ok hi.words (hi.pcs t) (hc htodo) hx
      all_goals
        simp only [Option.some.injEq, Prod.mk.injEq] at hx
        obtain ⟨rfl, rfl⟩ := hx
        exact ⟨hi.words, hi.pcs t⟩
    exact hi.update (fun _ _ => rfl) hok.1 hok.2 (opStep_idle (hi.idle t) hx) hthold hcall
  | ret t =>
    simp only [step] at hs
    split at hs
    · rename_i res hpc htodo
      obtain rfl := Option.some.inj hs
      refine hi.update (fun _ _ => rfl) hi.words trivial (fun _ => rfl) (fun b => ?_) trivial
      have h1 := (owns_of_todo_nil htodo b).2.1
      rw [hpc] at h1
      rw [h1]
      rfl
    · cases hs

omit [DecidableEq ρ] in
theorem regInv_init : RegInv [] (init : State ρ ι) := by
  refine ⟨fun r => Nat.zero_le _, fun _ => trivial, fun _ _ => rfl, fun b => ?_, fun _ => trivial⟩
  simp [Mem.stamps, init, Op.thold, Op.idle, Pc.thold, dtransient, stampOf, StampedPtr.null]

/-- As long as no stamp wraps and the `Store` in `Load` finds the pair the `Load` acquired,
`AtomicSharedPtr` is an atomic register. -/
theorem register_of_careful : AtomicRegister (Careful : State ρ ι → Act ρ ι → Prop) := by
  intro h s r
  have hi : RegInv h s := r.invariant (fun _ hs => hs ▸ regInv_init) fun _ _ _ _ => regInv_step
  refine ⟨fun a s' hc hs r => reg_step hc hs r, fun t e hpc => ?_, fun t e hpc => ?_, hi.transient⟩
  · have := hi.calls t
    rwa [hpc] at this
  · have := hi.calls t
    rwa [hpc] at this

end runs

/-! ## The overflow branch undoes a `Store` -/

section overflow

/-- A run leads to a state with these operations in which the register has the word `w`; block 0 has
strong references. -/
def Leads (w : StampedPtr Nat) (ops : Fin 2 → Op Unit) : Prop :=
  ∃ s, Reach (system Unit (Fin 2)) anyStep s ∧ s.mem.reg () = w ∧ 0 < s.mem.strong 0 ∧ s.ops = ops

variable {w w' : StampedPtr Nat} {ops : Fin 2 → Op Unit} {op op' : Op Unit} {t : Fin 2} {n : Nat}

theorem Leads.go (h : Leads w (update ops t op))
    (hs : ∀ m : Mem Unit, m.reg () = w → 0 < m.strong 0 → ∃ m', opStep noInner m false op =
      some (m', op') ∧ m'.reg () = w' ∧ 0 < m'.strong 0) : Leads w' (update ops t op') := by
  obtain ⟨s, r, hw, hp, hops⟩ := h
  obtain ⟨m', hm, hw', hp'⟩ := hs s.mem hw hp
  have hop : s.ops t = op := by rw [hops, update_self]
  refine ⟨{ s with mem := m', ops := update s.ops t op' }, r.step (a := .go t false) trivial ?_, hw',
    hp', ?_⟩
  · simp only [system, step, hop, hm, Option.map_some]
  · rw [hops]
    exact update_idem ..

theorem Leads.inc {pc : Pc Unit} {l : List Instr} {ds dt : Int}
    (h : Leads w (update ops t ⟨pc, .inc 0 ds dt :: l⟩)) (hds : 0 ≤ ds) :
    Leads w (update ops t ⟨pc, l⟩) := by
  refine h.go fun m hw hp => ?_
  have hs : (m.count 0 ds dt).strong 0 = m.strong 0 + ds := by simp [Mem.count]
  refine ⟨m.count 0 ds dt, ?_, hw, by omega⟩
  have hd : (m.count 0 ds dt).dropped 0 = [] := if_neg fun h => by omega
  simp only [opStep, hd, List.nil_append]

theorem Leads.load (h : Leads w ops) (ht : ops t = .idle) : Leads w (update ops t (.load ())) := by
  obtain ⟨s, r, hw, hp, rfl⟩ := h
  exact ⟨s.set t (.load ()) (s.bag t), r.step (a := .load t ()) trivial
    (by simp [system, step, State.call, ht, Op.idle]), hw, hp, rfl⟩

theorem Leads.ret {res : Res} (h : Leads w (update ops t ⟨.done res, []⟩)) :
    Leads w (update ops t .idle) := by
  obtain ⟨s, r, hw, hp, hops⟩ := h
  have hop : s.ops t = ⟨.done res, []⟩ := by rw [hops, update_self]
  refine ⟨s.set t .idle (res.handles ++ s.bag t), r.step (a := .ret t) trivial ?_, hw, hp, ?_⟩
  · simp only [system, step, hop]
  · simp only [State.set, hops, update_idem]

/-- A `Load` up to the comparison with the limit. -/
theorem Leads.acquire (h : Leads ⟨some 0, n⟩ ops) (ht : ops t = .idle) (hn : n < maxStamp) :
    Leads ⟨some 0, n + 1⟩ (update ops t ⟨.loadEnd () ⟨some 0, n + 1⟩ .value, []⟩) := by
  have h1 : Leads ⟨some 0, n⟩ (update ops t ⟨.acqCas () (.load .value) ⟨some 0, n⟩, []⟩) :=
    (h.load ht).go fun m hw hp => ⟨m, by simp [opStep, Op.load, pcStep, acquireLoop, hw], hw, hp⟩
  have h2 : Leads ⟨some 0, n + 1⟩ (update ops t
      ⟨.loadEnd () ⟨some 0, n + 1⟩ .value, incs (some 0) 1 0 ++ incs (some 0) 0 (-1)⟩) :=
    h1.go fun m hw hp => by
      have hold : (StampedPtr.mk (some 0) n).packed = ⟨some 0, n⟩ := packed_of_le hn.le
      have hnew : (StampedPtr.mk (some 0) (n + 1)).packed = ⟨some 0, n + 1⟩ := packed_of_le hn
      refine ⟨m.setReg () ⟨some 0, n + 1⟩, ?_, by simpa [Mem.setReg] using hnew, hp⟩
      simp [opStep, pcStep, hw, hold, acquired, incrementStamp]
  exact (h2.inc (by decide)).inc (by decide)

/-- Thread 0 makes block 0 and stores a copy of its handle. -/
def putBlock : List (Act Unit (Fin 2)) :=
  [Act.makeShared 0, Act.copy 0 0, Act.go 0 false, Act.ret 0, Act.store 0 () (some 0)]
    ++ List.replicate 3 (Act.go 0 false) ++ [Act.ret 0]

/-- `n` calls of `Load` bring the stamp to `n`. -/
theorem leads_loaded (hn : n ≤ limit) : Leads ⟨some 0, n⟩ fun _ => .idle := by
  induction n with
  | zero =>
    obtain ⟨s, r, hs⟩ := Reach.of_exec_any (system Unit (Fin 2)) putBlock
      (fun s => decide (s.mem.reg () = ⟨some 0, 0⟩ ∧ 0 < s.mem.strong 0 ∧ ∀ t, s.ops t = .idle)) rfl
      (by decide)
    obtain ⟨h1, h2, h3⟩ := of_decide_eq_true hs
    exact ⟨s, r, h1, h2, funext h3⟩
  | succ n ih =>
    have h1 := (ih (by omega)).acquire (t := 0) rfl (by have := limit_le_maxStamp; omega)
    have h2 : Leads ⟨some 0, n + 1⟩ (update _ 0 ⟨.done (.loaded (some 0)), []⟩) := h1.go fun m hw hp =>
      ⟨m, by simp [opStep, pcStep, loadRet, show ¬ limit < n + 1 by omega], hw, hp⟩
    simpa using h2.ret

/-- Thread 1 loads block 0 with a stamp above the limit, thread 0 empties the register, and the `Store`
in the `Load` of thread 1 puts block 0 back, with nobody writing it. -/
theorem overflow_undoes_store : ¬ AtomicRegister (anyStep : State Unit (Fin 2) → Act Unit (Fin 2) → Prop) := by
  intro hreg
  have h1 := (leads_loaded (le_refl limit)).acquire (t := 1) rfl (by decide)
  have h2 : Leads ⟨some 0, limit + 1⟩ (update (fun _ => .idle) 1
      ⟨.loadStore () ⟨some 0, 1⟩ .value, incs (some 0) 0 limit⟩) :=
    h1.go fun m hw hp => ⟨m, by simp [opStep, pcStep], hw, hp⟩
  obtain ⟨s, ⟨h, r⟩, -, -, hops⟩ := h2.inc (by decide)
  have hop0 : s.ops 0 = .idle := by rw [hops]; rfl
  have hop1 : s.ops 1 = ⟨.loadStore () ⟨some 0, 1⟩ .value, []⟩ := by rw [hops]; rfl
  obtain ⟨s₁, hs₁, hop0, hop1⟩ : ∃ s₁, step s (.store 0 () none) = some s₁ ∧
      s₁.ops 0 = .store () none ∧ s₁.ops 1 = ⟨.loadStore () ⟨some 0, 1⟩ .value, []⟩ :=
    ⟨s.set 0 (.store () none) (s.bag 0), by simp [step, State.call, hop0, Op.idle, takeHandle],
      rfl, hop1⟩
  obtain ⟨s₂, hs₂, hempty, hop1⟩ : ∃ s₂, step s₁ (.go 0 false) = some s₂ ∧
      s₂.mem.reg () = ⟨none, 0⟩ ∧ s₂.ops 1 = ⟨.loadStore () ⟨some 0, 1⟩ .value, []⟩ := by
    simp only [step, hop0, Op.store, incs, Option.toList_none, List.map_nil, opStep, pcStep,
      Option.map_some, Option.some.injEq, exists_eq_left']
    exact ⟨rfl, hop1⟩
  obtain ⟨s₃, hs₃, hback⟩ : ∃ s₃, step s₂ (.go 1 false) = some s₃ ∧ s₃.mem.reg () = ⟨some 0, 1⟩ := by
    simp only [step, hop1, opStep, pcStep, Option.map_some, Option.some.injEq, exists_eq_left']
    rfl
  have r₂ : Run (system Unit (Fin 2)) anyStep ((.go 0 false, s₁) :: (.store 0 () none, s) :: h) s₂ :=
    .step (.step r trivial hs₁) trivial hs₂
  have hwrite := (hreg _ s₂ r₂).1 (.go 1 false) s₃ trivial hs₃ ()
  rw [hback, hempty] at hwrite
  simp [writes, hop1, written] at hwrite

end overflow

end SharedPtr
