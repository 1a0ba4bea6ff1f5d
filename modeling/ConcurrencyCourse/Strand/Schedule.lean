import ConcurrencyCourse.Lib.Threads
import ConcurrencyCourse.MSQueue.Chain
import ConcurrencyCourse.Strand.Strand

/-!
# Strand: the scheduling protocol

Five counters of tasks: called, linked into `tasks_`, counted in `size_`, counted in `scheduled_`,
and completed. The first four differ by the threads between two steps of `Submit` (`Counts`); the
last one may be ahead of the fourth, and then `scheduled_` is below zero and wraps.

Responsibility for the linked tasks is held by at most one `Holder`. Without one, every taken task
is completed and `scheduled_` is at or below zero; with one, it is above zero. So the thread whose
`fetch_add` finds zero takes responsibility, exactly when nobody has it, and `Run` keeps it when
its `fetch_sub` leaves more than zero.
-/

namespace Strand

open Transition MSQueue Function

variable {ι T : Type}

/-! ## Counting the calls of `Submit` -/

/-- The phase of `Put`; `3` outside `Submit` and after `fetch_add`. -/
def SubPc.phase : SubPc → Nat
  | .put pc => pc.phase
  | .idle | .submitSelf => 3

/-- `1` when the call is in phase `k`. -/
def SubPc.inPhase (k : Nat) (p : SubPc) : Nat := if p.phase = k then 1 else 0

/-- The private node of the call. -/
def SubPc.priv : SubPc → Option Nat
  | .put pc => pc.priv
  | .idle | .submitSelf => none

/-- The counters, apart by the calls between two of them. -/
structure Counts [Fintype ι] (sub : ι → SubPc) (begun linked added counted : Nat) : Prop where
  begun : begun = linked + ∑ i, (sub i).inPhase 0
  linked : linked = added + ∑ i, (sub i).inPhase 1
  added : added = counted + ∑ i, (sub i).inPhase 2

/-- Thread `i` moves; the counters move with it. -/
theorem Counts.update [Fintype ι] [DecidableEq ι] {sub : ι → SubPc} {b l a c b' l' a' c' : Nat}
    (h : Counts sub b l a c) {i : ι} {x : SubPc}
    (hb : b' + l + (sub i).inPhase 0 = b + l' + x.inPhase 0)
    (hl : l' + a + (sub i).inPhase 1 = l + a' + x.inPhase 1)
    (ha : a' + c + (sub i).inPhase 2 = a + c' + x.inPhase 2) :
    Counts (update sub i x) b' l' a' c' := by
  obtain ⟨h1, h2, h3⟩ := h
  have e0 := Threads.sum_update_add (SubPc.inPhase 0) sub i x
  have e1 := Threads.sum_update_add (SubPc.inPhase 1) sub i x
  have e2 := Threads.sum_update_add (SubPc.inPhase 2) sub i x
  exact ⟨by omega, by omega, by omega⟩

/-! ## The invariant -/

/-- Nobody has taken a task that is not completed. -/
structure Quiet (q : Queue T) (executed : List T) (completed : Nat) : Prop where
  taken : q.taken = completed
  removed : q.removed = completed
  order : executed = q.values.take completed
  length : executed.length = completed

/-- What the responsible `Run` has done. -/
def RunOk (q : Queue T) (executed : List T) (completed : Nat) : RunPc T → Prop
  | .pending | .submitSelf => Quiet q executed completed
  | .take pc proc =>
    TakeOk q pc ∧ pc ≠ .done none ∧ executed.length = completed ∧
      q.removed + pc.unsized = q.taken ∧
      executed.length + proc.length + pc.unsized + pc.isDone.toNat = q.taken ∧
      executed ++ proc = q.values.take (executed.length + proc.length) ∧
      (pc.unsized = 0 → pc.isDone = false → q.taken < q.added)
  | .runTasks proc count =>
    q.taken = q.removed ∧ executed.length + proc.length = q.taken ∧
      executed ++ proc = q.values.take q.taken ∧ completed + count.toNat = executed.length
  | .absent | .finished | .terminated => False

/-- Who is responsible, and what that says about `scheduled_`. -/
def HolderOk (s : State ι T) : Option (Holder ι) → Prop
  | none => Quiet s.tasks s.executed s.completed ∧ s.counted ≤ s.completed
  | some (.sub _) => Quiet s.tasks s.executed s.completed ∧ s.completed < s.counted
  | some (.run k) => RunOk s.tasks s.executed s.completed (s.runs k) ∧ s.completed < s.counted

structure Inv [Fintype ι] (s : State ι T) (h : Option (Holder ι)) : Prop where
  tasks : QInv s.tasks
  put : ∀ i pc, s.sub i = .put pc → PutOk s.tasks pc
  priv : ∀ i j n, (s.sub i).priv = some n → (s.sub j).priv = some n → i = j
  counts : Counts s.sub s.begun s.tasks.values.length s.tasks.added s.counted
  room : s.begun < min s.counted s.completed + 2 ^ 64
  scheduled : (s.scheduled.toNat + s.completed) % 2 ^ 64 = s.counted % 2 ^ 64
  taken_le : s.tasks.taken ≤ s.tasks.added
  absent : ∀ k, s.spawned ≤ k → s.runs k = .absent
  alive : ∀ k, s.runs k ≠ .terminated
  unique : ∀ x, s.holds x ↔ h = some x
  holder : HolderOk s h

section steps

variable [Fintype ι] {s : State ι T} {h : Option (Holder ι)}

theorem Inv.completed_le_taken (hi : Inv s h) : s.completed ≤ s.tasks.taken := by
  have ho := hi.holder
  match h with
  | none => exact ho.1.taken.ge
  | some (.sub i) => exact ho.1.taken.ge
  | some (.run k) =>
    have hr := ho.1
    revert hr
    cases s.runs k <;> simp only [RunOk, false_imp_iff]
    · exact fun hq => hq.taken.ge
    · rintro ⟨-, -, h1, -, h2, -⟩; omega
    · rintro ⟨-, h1, -, h2⟩; omega
    · exact fun hq => hq.taken.ge

theorem Inv.completed_le_begun (hi : Inv s h) : s.completed ≤ s.begun := by
  have h1 := hi.completed_le_taken
  have h2 := hi.taken_le
  obtain ⟨h3, h4, h5⟩ := hi.counts
  omega

theorem Inv.counted_le_begun (hi : Inv s h) : s.counted ≤ s.begun := by
  obtain ⟨h3, h4, h5⟩ := hi.counts
  omega

/-- `scheduled_` is zero only if all counted tasks are completed, and no others. -/
theorem Inv.scheduled_eq_zero (hi : Inv s h) (hz : s.scheduled = 0) : s.counted = s.completed := by
  have h1 := hi.completed_le_begun
  have h2 := hi.counted_le_begun
  have h3 := hi.room
  have h4 := hi.scheduled
  rw [hz, UInt64.toNat_zero] at h4
  omega

/-- With somebody responsible, `scheduled_` does not wrap. -/
theorem Inv.scheduled_toNat (hi : Inv s h) (hc : s.completed < s.counted) :
    s.scheduled.toNat + s.completed = s.counted := by
  have h1 := hi.completed_le_begun
  have h2 := hi.counted_le_begun
  have h3 := hi.room
  have h4 := hi.scheduled
  have h5 := s.scheduled.toNat_lt
  omega

end steps

/-! ### The steps of `Submit` and the state of the others -/

theorem values_take_eq {q q' : Queue T} (hk : TakeKeeps q q') {n : Nat} (h : n ≤ q.values.length) :
    q'.values.take n = q.values.take n := by
  obtain ⟨l, hl⟩ := hk.values
  rw [← hl, List.take_append_of_le_length h]

theorem Quiet.mono {q q' : Queue T} {executed : List T} {completed : Nat} (hi : QInv q)
    (h : Quiet q executed completed) (hk : TakeKeeps q q') : Quiet q' executed completed := by
  have h1 := hi.taken_lt
  have h2 := hi.len
  have h3 := h.taken
  exact ⟨hk.taken.trans h.taken, hk.removed.trans h.removed, by
    rw [values_take_eq hk (by omega)]; exact h.order, h.length⟩

/-- A step of `Submit` does not disturb the `Run`. -/
theorem RunOk.mono {q q' : Queue T} {executed : List T} {completed : Nat} {pc : RunPc T}
    (hi : QInv q) (h : RunOk q executed completed pc) (hk : TakeKeeps q q') :
    RunOk q' executed completed pc := by
  have hlt := hi.taken_lt
  have hlen := hi.len
  cases pc with
  | pending => exact Quiet.mono hi h hk
  | submitSelf => exact Quiet.mono hi h hk
  | take pc proc =>
    obtain ⟨h1, h2, h3, h4, h5, h6, h7⟩ := h
    have := hk.added
    refine ⟨h1.mono hi hk, h2, h3, ?_, ?_, ?_, fun e1 e2 => ?_⟩
    · rw [hk.removed, hk.taken]; exact h4
    · rw [hk.taken]; exact h5
    · rw [values_take_eq hk (by omega)]; exact h6
    · have := h7 e1 e2; rw [hk.taken]; omega
  | runTasks proc count =>
    obtain ⟨h1, h2, h3, h4⟩ := h
    refine ⟨by rw [hk.taken, hk.removed]; exact h1, by rw [hk.taken]; exact h2, ?_, h4⟩
    rw [hk.taken, values_take_eq hk (by omega)]; exact h3
  | absent => exact h.elim
  | finished => exact h.elim
  | terminated => exact h.elim

theorem HolderOk.mono {s s' : State ι T} {h : Option (Holder ι)} (hq : QInv s.tasks)
    (ho : HolderOk s h) (hk : TakeKeeps s.tasks s'.tasks) (he : s'.executed = s.executed)
    (hr : s'.runs = s.runs) (hd : s'.completed = s.completed) (hc : s'.counted = s.counted) :
    HolderOk s' h := by
  match h with
  | none => exact ⟨he ▸ hd ▸ ho.1.mono hq hk, hc ▸ hd ▸ ho.2⟩
  | some (.sub i) => exact ⟨he ▸ hd ▸ ho.1.mono hq hk, hc ▸ hd ▸ ho.2⟩
  | some (.run k) => exact ⟨he ▸ hd ▸ hr ▸ ho.1.mono hq hk, hc ▸ hd ▸ ho.2⟩

section steps

variable [Fintype ι] [DecidableEq ι] {s : State ι T} {h : Option (Holder ι)} {i : ι} {k : Nat}

/-- A step of thread `i` inside `Put` (or into it). -/
theorem Inv.put_update (hi : Inv s h) {q' : Queue T} {pc : PutPc} {b' : Nat}
    (hk : TakeKeeps s.tasks q') (hq : QInv q') (hpc : PutOk q' pc)
    (hsub : s.sub i ≠ .submitSelf)
    (hkept : ∀ j n, j ≠ i → (s.sub j).priv = some n → PrivateKept s.tasks q' n)
    (hpriv : ∀ n, pc.priv = some n → ∀ j, j ≠ i → (s.sub j).priv ≠ some n)
    (hcounts : Counts (update s.sub i (.put pc)) b' q'.values.length q'.added s.counted)
    (hroom : b' < min s.counted s.completed + 2 ^ 64) :
    Inv ({ (s.setTasks q').setSub i (.put pc) with begun := b' } : State ι T) h := by
  refine ⟨hq, fun j pc' hj => ?_, fun j k n hj hk => ?_, hcounts, hroom, hi.scheduled, ?_, hi.absent,
    hi.alive, fun x => ?_, hi.holder.mono hi.tasks hk rfl rfl rfl rfl⟩
  · by_cases hji : j = i
    · subst hji
      simp only [State.setSub, update_self, SubPc.put.injEq] at hj
      exact hj ▸ hpc
    · simp only [State.setSub, update_of_ne hji] at hj
      exact (hi.put j pc' hj).mono hk.toGrows fun n hn => hkept j n hji (by
        rw [show s.sub j = .put pc' from hj]; exact hn)
  · simp only [State.setSub] at hj hk
    by_cases hji : j = i <;> by_cases hki : k = i
    · rw [hji, hki]
    · rw [hji, update_self] at hj
      rw [update_of_ne hki] at hk
      exact absurd hk (hpriv n hj k hki)
    · rw [hki, update_self] at hk
      rw [update_of_ne hji] at hj
      exact absurd hj (hpriv n hk j hji)
    · rw [update_of_ne hji] at hj
      rw [update_of_ne hki] at hk
      exact hi.priv j k n hj hk
  · have h1 := hi.taken_le
    have h2 := hk.added
    have h3 := hk.taken
    simp only [State.setSub, State.setTasks]; omega
  · rw [← hi.unique x]
    cases x with
    | run k => exact Iff.rfl
    | sub j =>
      by_cases hji : j = i
      · subst hji
        simp [State.holds, State.setSub, hsub]
      · simp [State.holds, State.setSub, State.setTasks, update_of_ne hji]

theorem Inv.beginPut (hi : Inv s h) (hs : s.sub i = .idle) (hroom : s.room = true) (task : T) :
    Inv (s.beginPut i task) h := by
  have hlt : ∀ j n, (s.sub j).priv = some n → Private s.tasks n := by
    intro j n hn
    cases hp : s.sub j with
    | idle | submitSelf => rw [hp] at hn; cases hn
    | put pc => rw [hp] at hn; exact (hi.put j pc hp).private hn
  have hk := takeKeeps_newNode hi.tasks task
  refine hi.put_update hk (hi.tasks.newNode task) (private_newNode hi.tasks task) (by rw [hs]; simp)
    (fun j n _ hn => privateKept_newNode (hlt j n hn) task) (fun n hn j _ hj => ?_)
    (hi.counts.update ?_ ?_ ?_) ?_
  · have := (hlt j n hj).lt
    simp only [PutPc.priv, Option.some.injEq] at hn
    omega
  · simp [hs, SubPc.inPhase, SubPc.phase, PutPc.phase, Queue.newNode]; omega
  · simp [hs, SubPc.inPhase, SubPc.phase, PutPc.phase, Queue.newNode]
  · simp [hs, SubPc.inPhase, SubPc.phase, PutPc.phase, Queue.newNode]
  · simpa [State.room] using hroom

theorem Inv.put_step (hi : Inv s h) {pc : PutPc} (hs : s.sub i = .put pc) {sp : Bool} {o : Ptr}
    {r : Queue T × PutPc} (hr : putStep s.tasks sp o pc = some r) :
    Inv ((s.setTasks r.1).setSub i (.put r.2)) h := by
  obtain ⟨q', pc'⟩ := r
  have hp := hi.put i pc hs
  have he := putStep_effect hi.tasks hp hr
  refine hi.put_update he.takeKeeps (he.inv hi.tasks) (putStep_ok hi.tasks hp hr) (by rw [hs]; simp)
    (fun j n hj hn => ?_) (fun n hn j hj hjn => ?_) ?_ hi.room
  · cases hpj : s.sub j with
    | idle | submitSelf => rw [hpj] at hn; cases hn
    | put pcj =>
      rw [hpj] at hn
      refine he.privateKept ((hi.put j pcj hpj).private hn) fun hin => hj ?_
      exact hi.priv j i n (by rw [hpj]; exact hn) (by rw [hs]; exact hin)
  · refine hj (hi.priv j i n hjn ?_)
    rw [hs]
    exact he.priv_eq hn
  · have hcounts := hi.counts
    cases he with
    | move _ _ phase =>
      have e : ∀ k, (SubPc.put pc').inPhase k = (s.sub i).inPhase k := fun k => by
        simp only [SubPc.inPhase, SubPc.phase, hs, phase]
      exact hcounts.update (by simp only [e]; rfl) (by simp only [e]; rfl) (by simp only [e]; rfl)
    | @link n t _ _ new =>
      obtain ⟨v, hv⟩ := Option.isSome_iff_exists.1 new.value
      have hlen : (s.tasks.link t n).values.length = s.tasks.values.length + 1 := by
        simp [Queue.link, hv]
      refine hcounts.update ?_ ?_ ?_ <;>
        simp only [hs, hlen, SubPc.inPhase, SubPc.phase, PutPc.phase] <;> simp [Queue.link, State.setTasks] <;> omega
    | bump =>
      refine hcounts.update ?_ ?_ ?_ <;>
        simp only [hs, SubPc.inPhase, SubPc.phase, PutPc.phase] <;> simp [Queue.addSize, State.setTasks] <;> omega

/-- `scheduled_.fetch_add(1)`: the thread that finds zero takes responsibility. -/
theorem Inv.fetchAdd (hi : Inv s h) (hs : s.sub i = .put .done) :
    ∃ h', Inv (s.fetchAdd.setSub i (if s.scheduled = 0 then .submitSelf else .idle)) h' := by
  have hx : ∀ k, k < 3 → (if s.scheduled = 0 then SubPc.submitSelf else .idle).inPhase k = 0 := by
    intro k hk
    split <;> simp only [SubPc.inPhase, SubPc.phase] <;> exact if_neg (by omega)
  have hput : ∀ j pc, update s.sub i (if s.scheduled = 0 then SubPc.submitSelf else .idle) j = .put pc →
      s.sub j = .put pc := by
    intro j pc hj
    by_cases hji : j = i
    · subst hji; rw [update_self] at hj; split at hj <;> cases hj
    · rwa [update_of_ne hji] at hj
  have hpriv : ∀ j n, (update s.sub i (if s.scheduled = 0 then SubPc.submitSelf else .idle) j).priv =
      some n → (s.sub j).priv = some n := by
    intro j n hj
    cases hp : update s.sub i (if s.scheduled = 0 then SubPc.submitSelf else .idle) j with
    | idle | submitSelf => rw [hp] at hj; cases hj
    | put pc => rw [hp] at hj; rw [hput j pc hp]; exact hj
  have hcounts : Counts (update s.sub i (if s.scheduled = 0 then .submitSelf else .idle)) s.begun
      s.tasks.values.length s.tasks.added (s.counted + 1) := by
    refine hi.counts.update ?_ ?_ ?_ <;> rw [hx _ (by omega)] <;>
      simp [hs, SubPc.inPhase, SubPc.phase, PutPc.phase, Nat.add_assoc]
  have hsch : ((s.scheduled + 1).toNat + s.completed) % 2 ^ 64 = (s.counted + 1) % 2 ^ 64 := by
    have := hi.scheduled
    simp only [UInt64.toNat_add, UInt64.toNat_one]; omega
  have hroom : s.begun < min (s.counted + 1) s.completed + 2 ^ 64 := by have := hi.room; omega
  have hmk : ∀ h', (∀ x, State.holds (s.fetchAdd.setSub i
      (if s.scheduled = 0 then .submitSelf else .idle)) x ↔ h' = some x) →
      HolderOk (s.fetchAdd.setSub i (if s.scheduled = 0 then .submitSelf else .idle)) h' →
      Inv (s.fetchAdd.setSub i (if s.scheduled = 0 then .submitSelf else .idle)) h' := fun h' hu ho =>
    ⟨hi.tasks, fun j pc hj => hi.put j pc (hput j pc hj),
      fun j k n hj hk => hi.priv j k n (hpriv j n hj) (hpriv k n hk), hcounts, hroom, hsch,
      hi.taken_le, hi.absent, hi.alive, hu, ho⟩
  have ho := hi.holder
  by_cases hz : s.scheduled = 0
  · -- all counted tasks are completed, so nobody is responsible
    have heq := hi.scheduled_eq_zero hz
    obtain rfl : h = none := by
      match h with
      | none => rfl
      | some (.sub j) => exact absurd ho.2 (by omega)
      | some (.run k) => exact absurd ho.2 (by omega)
    refine ⟨some (.sub i), hmk _ (fun x => ?_) ⟨ho.1, by simp [State.setSub, State.fetchAdd]; omega⟩⟩
    have hnone := hi.unique x
    cases x with
    | run k => simpa [State.holds, State.setSub, State.fetchAdd] using hnone
    | sub j =>
      by_cases hji : j = i
      · subst hji; simp [State.holds, State.setSub, hz]
      · have : i ≠ j := fun e => hji e.symm
        simpa [State.holds, State.setSub, State.fetchAdd, hji, this] using hnone
  · refine ⟨h, hmk _ (fun x => ?_) ?_⟩
    · rw [← hi.unique x]
      cases x with
      | run k => exact Iff.rfl
      | sub j =>
        by_cases hji : j = i
        · subst hji; simp [State.holds, State.setSub, hz, hs]
        · simp [State.holds, State.setSub, State.fetchAdd, update_of_ne hji]
    · match h with
      | none =>
        -- at zero the thread would have found zero
        refine ⟨ho.1, ?_⟩
        have h1 : s.counted ≤ s.completed := ho.2
        have h2 : s.counted ≠ s.completed := fun e => hz (UInt64.toNat_inj.1 (by
          have := hi.scheduled
          have := s.scheduled.toNat_lt
          rw [UInt64.toNat_zero]; omega))
        simp only [State.setSub, State.fetchAdd]; omega
      | some (.sub j) => exact ⟨ho.1, Nat.lt_succ_of_lt ho.2⟩
      | some (.run k) => exact ⟨ho.1, Nat.lt_succ_of_lt ho.2⟩

/-! ### The steps of `Run` -/

omit [DecidableEq ι] in
theorem Inv.holder_sub (hi : Inv s h) (hs : s.sub i = .submitSelf) : h = some (.sub i) :=
  (hi.unique (.sub i)).1 hs

omit [DecidableEq ι] in
theorem Inv.holder_run (hi : Inv s h) (hs : (s.runs k).active = true) : h = some (.run k) :=
  (hi.unique (.run k)).1 hs

omit [DecidableEq ι] in
theorem Inv.added_le (hi : Inv s h) : s.tasks.added ≤ s.tasks.values.length := by
  obtain ⟨-, h2, -⟩ := hi.counts
  omega

omit [DecidableEq ι] in
/-- A step of the responsible `Run` that keeps responsibility. -/
theorem Inv.run_update (hi : Inv s (some (.run k))) {pc' : RunPc T} {q' : Queue T} (ex' : List T)
    (ha : pc'.active = true) (hg : Grows s.tasks q') (hq : QInv q')
    (hvals : q'.values = s.tasks.values) (hadd : q'.added = s.tasks.added)
    (hle : q'.taken ≤ q'.added)
    (hkept : ∀ n, Private s.tasks n → PrivateKept s.tasks q' n)
    (hr : RunOk q' ex' s.completed pc') :
    Inv ({ (s.setTasks q').setRun k pc' with executed := ex' } : State ι T) (some (.run k)) := by
  have hact := (hi.unique (.run k)).2 rfl
  have hk : k < s.spawned := by
    by_contra hlt
    have := hi.absent k (by omega)
    simp [State.holds, this, RunPc.active] at hact
  refine ⟨hq, fun j pc hj => ?_, hi.priv, ?_, hi.room, hi.scheduled, hle, fun j hj => ?_, fun j => ?_,
    fun x => ?_, ?_, hi.holder.2⟩
  · exact (hi.put j pc hj).mono hg fun n hn => hkept n ((hi.put j pc hj).private hn)
  · have := hi.counts
    simp only [State.setRun, State.setTasks]
    rwa [hvals, hadd]
  · have hj : s.spawned ≤ j := hj
    simp only [State.setRun, State.setTasks]
    rw [update_of_ne (by omega)]
    exact hi.absent j hj
  · simp only [State.setRun, State.setTasks]
    by_cases hjk : j = k
    · subst hjk
      rw [update_self]
      rintro rfl
      cases ha
    · rw [update_of_ne hjk]; exact hi.alive j
  · rw [← hi.unique x]
    cases x with
    | sub j => exact Iff.rfl
    | run j =>
      simp only [State.holds, State.setRun, State.setTasks]
      by_cases hjk : j = k
      · subst hjk
        rw [update_self]
        exact ⟨fun _ => hact, fun _ => ha⟩
      · rw [update_of_ne hjk]
  · simpa [State.setRun, State.setTasks] using hr

omit [DecidableEq ι] in
/-- A step of the responsible `Run` that leaves `tasks_` alone. -/
theorem Inv.run_local (hi : Inv s (some (.run k))) {pc' : RunPc T} (ex' : List T)
    (ha : pc'.active = true) (hr : RunOk s.tasks ex' s.completed pc') :
    Inv ({ s.setRun k pc' with executed := ex' } : State ι T) (some (.run k)) :=
  hi.run_update ex' ha ⟨List.prefix_refl _, le_refl _, fun _ _ _ h => h⟩ hi.tasks rfl rfl hi.taken_le
    (fun _ hn => ⟨hn.notMem, rfl⟩) hr

omit [DecidableEq ι] in
/-- The `Run` begins: `scheduled_` is above zero, so something is in `tasks_`. -/
theorem Inv.begin_run (hi : Inv s (some (.run k))) (hs : s.runs k = .pending) :
    Inv (s.setRun k (.take .loadHead [])) (some (.run k)) := by
  obtain ⟨hq, hlt⟩ := hi.holder
  rw [hs] at hq
  obtain ⟨h1, h2, h3, h4⟩ := hq
  obtain ⟨-, -, h5⟩ := hi.counts
  refine hi.run_local s.executed rfl ⟨trivial, by simp, h4, ?_, ?_, ?_, fun _ _ => ?_⟩
  · simp only [TakePc.unsized, TakePc.unretired]; omega
  · simp only [TakePc.unsized, TakePc.unretired, TakePc.isDone, List.length_nil, Bool.toNat_false]; omega
  · rw [List.append_nil, List.length_nil, Nat.add_zero, h4]; exact h3
  · omega

omit [DecidableEq ι] in
/-- A step of `tasks_.Take()`; it does not end with `nullopt`. -/
theorem Inv.take_step (hi : Inv s (some (.run k))) {pc : TakePc T} {proc : List T}
    (hs : s.runs k = .take pc proc) {sp : Bool} {r : Queue T × TakePc T}
    (hr : takeStep s.tasks sp pc = some r) :
    Inv ((s.setTasks r.1).setRun k (.take r.2 proc)) (some (.run k)) := by
  obtain ⟨q', pc'⟩ := r
  have hrun := hi.holder.1
  rw [hs] at hrun
  obtain ⟨h1, h2, h3, h4, h5, h6, h7⟩ := hrun
  obtain ⟨he, hok⟩ := takeStep_effect hi.tasks h1 hr
  have hle := hi.taken_le
  have hadd := hi.added_le
  have hmk : ∀ (hvals : q'.values = s.tasks.values) (hadd : q'.added = s.tasks.added)
      (hle : q'.taken ≤ q'.added) (hr : RunOk q' s.executed s.completed (.take pc' proc)),
      Inv ((s.setTasks q').setRun k (.take pc' proc)) (some (.run k)) := fun hvals hadd hle hr =>
    hi.run_update s.executed rfl he.grows (he.inv hi.tasks) hvals hadd hle
      (fun _ hn => he.privateKept hn) hr
  cases he with
  | stay _ sized done =>
    have hnd : pc.isDone = false := by cases pc <;> first | rfl | cases hr
    have hnd' : pc'.isDone = false := by
      by_contra hd
      rw [Bool.not_eq_false] at hd
      obtain ⟨rfl, hlen⟩ := done hd
      have := h7 sized.symm hnd
      omega
    rw [hnd] at h5
    refine hmk rfl rfl hle ⟨hok, ?_, h3, by rw [sized]; exact h4, by rw [sized, hnd']; exact h5, h6,
      fun e _ => h7 (sized ▸ e) hnd⟩
    rintro rfl
    cases hnd'
  | advance head next =>
    have := h7 rfl rfl
    refine hmk rfl rfl this ⟨hok, by simp, h3, ?_, ?_, h6, fun e => by cases e⟩
    · simpa [Queue.advance, TakePc.unsized, TakePc.unretired] using h4
    · simpa [Queue.advance, TakePc.unsized, TakePc.unretired, TakePc.isDone] using h5
  | moveOut => exact hmk rfl rfl hle ⟨hok, by simp, h3, h4, h5, h6, fun e => by cases e⟩
  | @retire h₀ item =>
    have e : (s.tasks.retire h₀).values = s.tasks.values ∧ (s.tasks.retire h₀).added = s.tasks.added ∧
        (s.tasks.retire h₀).taken = s.tasks.taken ∧ (s.tasks.retire h₀).removed = s.tasks.removed := by
      simp only [Queue.retire, Queue.collectGarbage]
      split <;> exact ⟨rfl, rfl, rfl, rfl⟩
    obtain ⟨e1, e2, e3, e4⟩ := e
    refine hmk e1 e2 (by rw [e2, e3]; exact hle) ⟨hok, by simp, h3, ?_, ?_, ?_, fun e => by cases e⟩
    · rw [e3, e4]; exact h4
    · rw [e3]; exact h5
    · rw [e1]; exact h6
  | subSize =>
    refine hmk rfl rfl hle ⟨hok, by simp, h3, h4, h5, h6, fun _ e => by cases e⟩

omit [DecidableEq ι] in
theorem Inv.size_ne_zero (hi : Inv s h) (he : s.tasks.isEmpty = false) :
    s.tasks.added ≠ s.tasks.removed := by
  intro heq
  have h1 := hi.tasks.size
  have h2 := s.tasks.size.toNat_lt
  have h3 : s.tasks.size ≠ 0 := by simpa [Queue.isEmpty] using he
  exact h3 (UInt64.toNat_inj.1 (by rw [UInt64.toNat_zero]; omega))

omit [DecidableEq ι] in
/-- The taken task goes into `processing_tasks`; `IsEmpty` decides. -/
theorem Inv.put_processing (hi : Inv s (some (.run k))) {task : T} {proc : List T}
    (hs : s.runs k = .take (.done (some task)) proc) :
    Inv (s.setRun k (if s.tasks.isEmpty then .runTasks (proc ++ [task]) 0
      else .take .loadHead (proc ++ [task]))) (some (.run k)) := by
  have hrun := hi.holder.1
  rw [hs] at hrun
  obtain ⟨⟨j, hj, hv⟩, -, h3, h4, h5, h6, -⟩ := hrun
  simp only [TakePc.unsized, TakePc.unretired, TakePc.isDone, Bool.toNat_true, Nat.add_zero] at h4 h5
  have hall : s.executed ++ (proc ++ [task]) =
      s.tasks.values.take (s.executed.length + (proc ++ [task]).length) := by
    rw [List.length_append, List.length_singleton, ← Nat.add_assoc, List.take_add_one, ← h6,
      show s.executed.length + proc.length = j by omega, hv, ← List.append_assoc]
    rfl
  have hlen : s.executed.length + (proc ++ [task]).length = s.tasks.taken := by
    rw [List.length_append, List.length_singleton]; omega
  split
  · refine hi.run_local s.executed rfl ⟨h4.symm, hlen, by rw [← hlen]; exact hall, ?_⟩
    rw [UInt64.toNat_zero]; omega
  · rename_i hne
    refine hi.run_local s.executed rfl ⟨trivial, by simp, h3, h4, ?_, hall, fun _ _ => ?_⟩
    · simpa [TakePc.unsized, TakePc.unretired, TakePc.isDone] using hlen
    · have h1 := hi.size_ne_zero (by simpa using hne)
      have h2 := hi.taken_le
      omega

omit [DecidableEq ι] in
theorem Inv.execute (hi : Inv s (some (.run k))) {task : T} {proc : List T} {count : UInt64}
    (hs : s.runs k = .runTasks (task :: proc) count) :
    Inv ((s.execute task).setRun k (.runTasks proc (count + 1))) (some (.run k)) := by
  have hrun := hi.holder.1
  rw [hs] at hrun
  obtain ⟨h1, h2, h3, h4⟩ := hrun
  simp only [List.length_cons] at h2
  refine hi.run_local (s.executed ++ [task]) rfl ⟨h1, ?_, ?_, ?_⟩
  · rw [List.length_append, List.length_singleton]; omega
  · rw [List.append_assoc]; exact h3
  · have g1 := hi.taken_le
    have g2 := hi.added_le
    have g3 := hi.room
    obtain ⟨g4, -, -⟩ := hi.counts
    rw [List.length_append, List.length_singleton, UInt64.toNat_add, UInt64.toNat_one]
    omega

/-- `SubmitSelf` by `Submit`. -/
theorem Inv.spawn_sub (hi : Inv s h) (hs : s.sub i = .submitSelf) :
    Inv (s.spawn.setSub i .idle) (some (.run s.spawned)) := by
  obtain rfl := hi.holder_sub hs
  obtain ⟨hq, hlt⟩ := hi.holder
  have hput : ∀ j, (update s.sub i .idle j) = s.sub j ∨ (update s.sub i .idle j) = .idle := by
    intro j
    by_cases hji : j = i
    · subst hji; right; rw [update_self]
    · left; rw [update_of_ne hji]
  refine ⟨hi.tasks, fun j pc hj => ?_, fun j l n hj hl => ?_, hi.counts.update ?_ ?_ ?_, hi.room,
    hi.scheduled, hi.taken_le, fun j hj => ?_, fun j => ?_, fun x => ?_, ?_, hlt⟩
  · rcases hput j with e | e
    · exact hi.put j pc (e ▸ hj)
    · rw [show (s.spawn.setSub i .idle).sub j = .idle from e] at hj; cases hj
  · have hold : ∀ j n, ((s.spawn.setSub i .idle).sub j).priv = some n → (s.sub j).priv = some n := by
      intro j n hj
      rcases hput j with e | e
      · exact e ▸ hj
      · rw [show (s.spawn.setSub i .idle).sub j = .idle from e] at hj; cases hj
    exact hi.priv j l n (hold j n hj) (hold l n hl)
  · rw [hs]; rfl
  · rw [hs]; rfl
  · rw [hs]; rfl
  · have hj : s.spawned + 1 ≤ j := hj
    simp only [State.setSub, State.spawn]
    rw [update_of_ne (by omega)]
    exact hi.absent j (by omega)
  · simp only [State.setSub, State.spawn]
    by_cases hj : j = s.spawned
    · subst hj; rw [update_self]; simp
    · rw [update_of_ne hj]; exact hi.alive j
  · have hu := hi.unique
    cases x with
    | sub j =>
      have := (hu (.sub j))
      by_cases hji : j = i
      · subst hji; simp [State.holds, State.setSub]
      · have hne : i ≠ j := fun e => hji e.symm
        simpa [State.holds, State.setSub, State.spawn, hji, hne] using this
    | run j =>
      have := hu (.run j)
      by_cases hj : j = s.spawned
      · subst hj; simp [State.holds, State.setSub, State.spawn, RunPc.active]
      · have hne : s.spawned ≠ j := fun e => hj e.symm
        simpa [State.holds, State.setSub, State.spawn, hj, hne] using this
  · simpa [State.setSub, State.spawn, RunOk] using hq

omit [DecidableEq ι] in
/-- `SubmitSelf` by `Run`. -/
theorem Inv.spawn_run (hi : Inv s (some (.run k))) (hs : s.runs k = .submitSelf) :
    Inv (s.spawn.setRun k .finished) (some (.run s.spawned)) := by
  obtain ⟨hq, hlt⟩ := hi.holder
  rw [hs] at hq
  have hk : k < s.spawned := by
    by_contra hge
    have := hi.absent k (by omega)
    rw [hs] at this; cases this
  have hruns : ∀ j, (s.spawn.setRun k .finished).runs j = if j = k then .finished
      else if j = s.spawned then .pending else s.runs j := by
    intro j
    simp only [State.setRun, State.spawn, update_apply]
  refine ⟨hi.tasks, hi.put, hi.priv, hi.counts, hi.room, hi.scheduled, hi.taken_le, fun j hj => ?_,
    fun j => ?_, fun x => ?_, ?_, hlt⟩
  · have hj : s.spawned + 1 ≤ j := hj
    rw [hruns, if_neg (by omega), if_neg (by omega)]
    exact hi.absent j (by omega)
  · rw [hruns]
    split
    · simp
    · split
      · simp
      · exact hi.alive j
  · cases x with
    | sub j => simpa [State.holds, State.setRun, State.spawn] using hi.unique (.sub j)
    | run j =>
      simp only [State.holds, hruns]
      have := hi.unique (.run j)
      simp only [State.holds] at this
      by_cases hjk : j = k
      · subst hjk
        have hne : s.spawned ≠ j := by omega
        simp [RunPc.active, hne]
      · rw [if_neg hjk]
        by_cases hj : j = s.spawned
        · subst hj; simp [RunPc.active]
        · rw [if_neg hj, this]
          have h1 : k ≠ j := fun e => hjk e.symm
          have h2 : s.spawned ≠ j := fun e => hj e.symm
          simp [h1, h2]
  · rw [hruns, if_neg (by omega), if_pos rfl]
    exact hq

omit [DecidableEq ι] in
/-- `scheduled_.fetch_sub(completed)`: the `Run` keeps responsibility exactly when more was
counted than completed. -/
theorem Inv.fetchSub (hi : Inv s (some (.run k))) {count : UInt64}
    (hs : s.runs k = .runTasks [] count) :
    ∃ h', Inv ((s.fetchSub count).setRun k
      (if s.scheduled > count then .submitSelf else .finished)) h' := by
  obtain ⟨hrun, hlt⟩ := hi.holder
  rw [hs] at hrun
  obtain ⟨h1, h2, h3, h4⟩ := hrun
  simp only [List.append_nil, List.length_nil, Nat.add_zero] at h2 h3
  have hsch := hi.scheduled_toNat hlt
  have hact := (hi.unique (.run k)).2 rfl
  have hk : k < s.spawned := by
    by_contra hge
    have := hi.absent k (by omega)
    rw [hs] at this; cases this
  have hquiet : Quiet s.tasks s.executed (s.completed + count.toNat) :=
    ⟨by omega, by omega, by rw [h4, h2]; exact h3, by omega⟩
  have hroom : s.begun < min s.counted (s.completed + count.toNat) + 2 ^ 64 := by
    have := hi.room; omega
  have hmod : ((s.scheduled - count).toNat + (s.completed + count.toNat)) % 2 ^ 64 =
      s.counted % 2 ^ 64 := by
    have h5 := s.scheduled.toNat_lt
    have h6 := count.toNat_lt
    rw [UInt64.toNat_sub]
    omega
  have hmk : ∀ {pc' : RunPc T} {h' : Option (Holder ι)}, pc' ≠ .terminated →
      (∀ x, State.holds ((s.fetchSub count).setRun k pc') x ↔ h' = some x) →
      HolderOk ((s.fetchSub count).setRun k pc') h' → Inv ((s.fetchSub count).setRun k pc') h' := by
    intro pc' h' ht hu ho
    refine ⟨hi.tasks, hi.put, hi.priv, hi.counts, hroom, hmod, hi.taken_le, fun j hj => ?_, fun j => ?_,
      hu, ho⟩
    · have hj : s.spawned ≤ j := hj
      simp only [State.setRun, State.fetchSub]
      rw [update_of_ne (by omega)]
      exact hi.absent j hj
    · simp only [State.setRun, State.fetchSub]
      by_cases hjk : j = k
      · subst hjk; rwa [update_self]
      · rw [update_of_ne hjk]; exact hi.alive j
  have hcmp : s.scheduled > count ↔ s.completed + count.toNat < s.counted := by
    rw [gt_iff_lt, UInt64.lt_iff_toNat_lt]; omega
  by_cases hgt : s.scheduled > count
  · rw [if_pos hgt]
    refine ⟨some (.run k), hmk (by simp) (fun x => ?_) ⟨?_, hcmp.1 hgt⟩⟩
    · rw [← hi.unique x]
      cases x with
      | sub j => exact Iff.rfl
      | run j =>
        by_cases hjk : j = k
        · subst hjk
          simp [State.holds, State.setRun, RunPc.active, hs]
        · simp [State.holds, State.setRun, State.fetchSub, hjk]
    · simpa [State.setRun, State.fetchSub, RunOk] using hquiet
  · rw [if_neg hgt]
    refine ⟨none, hmk (by simp) (fun x => ?_) ⟨hquiet, by rw [hcmp] at hgt; simpa [State.setRun, State.fetchSub] using hgt⟩⟩
    have := hi.unique x
    cases x with
    | sub j => simpa [State.holds, State.setRun, State.fetchSub] using this
    | run j =>
      by_cases hjk : j = k
      · subst hjk; simp [State.holds, State.setRun, RunPc.active]
      · have hne : k ≠ j := fun e => hjk e.symm
        simpa [State.holds, State.setRun, State.fetchSub, hjk, hne] using this

omit [DecidableEq ι] in
theorem inv_init : Inv (init : State ι T) none where
  tasks := .empty
  put _ _ h := by cases h
  priv _ _ _ h := by cases h
  counts := ⟨by simp [init, Queue.empty, SubPc.inPhase, SubPc.phase],
    by simp [init, Queue.empty, SubPc.inPhase, SubPc.phase],
    by simp [init, Queue.empty, SubPc.inPhase, SubPc.phase]⟩
  room := by simp [init]
  scheduled := rfl
  taken_le := le_refl _
  absent _ _ := rfl
  alive _ := by simp [init]
  unique x := by cases x <;> simp [State.holds, init, RunPc.active]
  holder := ⟨⟨rfl, rfl, rfl, rfl⟩, le_refl _⟩

theorem inv_subStep (hi : Inv s h) {sp : Bool} {o : Ptr} {s' : State ι T}
    (hs : subStep s i sp o = some s') : ∃ h', Inv s' h' := by
  unfold subStep at hs
  split at hs
  · cases hs
  · rename_i hp
    obtain rfl := Option.some.inj hs
    exact hi.fetchAdd hp
  · rename_i pc _ hp
    obtain ⟨r, hr, rfl⟩ := Option.map_eq_some_iff.1 hs
    exact ⟨h, hi.put_step hp hr⟩
  · rename_i hp
    obtain rfl := Option.some.inj hs
    exact ⟨_, hi.spawn_sub hp⟩

omit [DecidableEq ι] in
theorem inv_runStep (hi : Inv s h) {sp : Bool} {s' : State ι T} (hs : runStep s k sp = some s') :
    ∃ h', Inv s' h' := by
  have hact : s.runs k ≠ .absent → s.runs k ≠ .finished → h = some (.run k) := by
    intro h1 h2
    refine hi.holder_run ?_
    have h3 := hi.alive k
    revert h1 h2 h3
    cases s.runs k <;> simp [RunPc.active]
  unfold runStep at hs
  split at hs
  · cases hs
  · cases hs
  · cases hs
  · rename_i hp
    obtain rfl := Option.some.inj hs
    obtain rfl := hact (by rw [hp]; simp) (by rw [hp]; simp)
    exact ⟨_, hi.begin_run hp⟩
  · -- `value()` on `nullopt`
    rename_i proc hp
    obtain rfl := hact (by rw [hp]; simp) (by rw [hp]; simp)
    have := hi.holder.1
    rw [hp] at this
    exact absurd rfl this.2.1
  · rename_i task proc hp
    obtain rfl := Option.some.inj hs
    obtain rfl := hact (by rw [hp]; simp) (by rw [hp]; simp)
    exact ⟨_, hi.put_processing hp⟩
  · rename_i pc proc _ _ hp
    obtain ⟨r, hr, rfl⟩ := Option.map_eq_some_iff.1 hs
    obtain rfl := hact (by rw [hp]; simp) (by rw [hp]; simp)
    exact ⟨_, hi.take_step hp hr⟩
  · rename_i task proc count hp
    obtain rfl := Option.some.inj hs
    obtain rfl := hact (by rw [hp]; simp) (by rw [hp]; simp)
    exact ⟨_, hi.execute hp⟩
  · rename_i count hp
    obtain rfl := Option.some.inj hs
    obtain rfl := hact (by rw [hp]; simp) (by rw [hp]; simp)
    exact hi.fetchSub hp
  · rename_i hp
    obtain rfl := Option.some.inj hs
    obtain rfl := hact (by rw [hp]; simp) (by rw [hp]; simp)
    exact ⟨_, hi.spawn_run hp⟩

theorem inv_step {a : Act ι T} {s' : State ι T} (hi : Inv s h) (hs : step s a = some s') :
    ∃ h', Inv s' h' := by
  cases a with
  | submit i task =>
    simp only [step] at hs
    split at hs
    · rename_i hp
      split at hs
      · rename_i hroom
        obtain rfl := Option.some.inj hs
        exact ⟨h, hi.beginPut hp hroom task⟩
      · cases hs
    · cases hs
  | sub i sp o => exact inv_subStep hi hs
  | run k sp => exact inv_runStep hi hs

theorem inv_of_reach {s : State ι T} (r : Reach (system ι T) anyStep s) : ∃ h, Inv s h :=
  r.invariant (I := fun s => ∃ h, Inv s h) (fun _ hs => ⟨none, hs ▸ inv_init⟩)
    fun _ _ _ ⟨_, hi⟩ _ hs => inv_step hi hs

end steps

/-! ## The protocol -/

section protocol

variable [Fintype ι] {s : State ι T} {h : Option (Holder ι)}

/-- The executed tasks are the first linked ones, in this order. -/
theorem Inv.executed_prefix (hi : Inv s h) : s.executed <+: s.tasks.values := by
  have ho := hi.holder
  have hq : Quiet s.tasks s.executed s.completed → s.executed <+: s.tasks.values := fun hq => by
    rw [hq.order]; exact List.take_prefix _ _
  match h with
  | none => exact hq ho.1
  | some (.sub i) => exact hq ho.1
  | some (.run k) =>
    have hr := ho.1
    cases hp : s.runs k <;> rw [hp] at hr
    case pending => exact hq hr
    case submitSelf => exact hq hr
    case take pc proc =>
      obtain ⟨-, -, -, -, -, h6, -⟩ := hr
      exact (List.prefix_append _ proc).trans (h6 ▸ List.take_prefix _ _)
    case runTasks proc count =>
      obtain ⟨-, -, h3, -⟩ := hr
      exact (List.prefix_append _ proc).trans (h3 ▸ List.take_prefix _ _)
    all_goals exact hr.elim

/-- `size_` was never decremented more often than incremented. -/
theorem Inv.removed_le (hi : Inv s h) : s.tasks.removed ≤ s.tasks.taken := by
  have ho := hi.holder
  have hq : Quiet s.tasks s.executed s.completed → s.tasks.removed ≤ s.tasks.taken := fun hq => by
    rw [hq.removed, hq.taken]
  match h with
  | none => exact hq ho.1
  | some (.sub i) => exact hq ho.1
  | some (.run k) =>
    have hr := ho.1
    cases hp : s.runs k <;> rw [hp] at hr
    case pending => exact hq hr
    case submitSelf => exact hq hr
    case take pc proc => obtain ⟨-, -, -, h4, -⟩ := hr; omega
    case runTasks proc count => exact hr.1.ge
    all_goals exact hr.elim

/-- With nobody responsible, a task that is not executed belongs to a thread that has linked it and
not counted it. -/
theorem Inv.linked_by_sub (hi : Inv s none) (hne : s.tasks.taken < s.tasks.values.length) :
    ∃ i, (s.sub i).uncounted := by
  obtain ⟨hq, hle⟩ := hi.holder
  obtain ⟨-, h1, h2⟩ := hi.counts
  have h3 := hq.taken
  have hpos : 0 < ∑ i, ((s.sub i).inPhase 1 + (s.sub i).inPhase 2) := by
    rw [Finset.sum_add_distrib]; omega
  obtain ⟨i, -, hi0⟩ := Finset.exists_ne_zero_of_sum_ne_zero hpos.ne'
  refine ⟨i, ?_⟩
  revert hi0
  cases s.sub i with
  | idle | submitSelf => simp [SubPc.inPhase, SubPc.phase]
  | put pc => cases pc <;> simp [SubPc.inPhase, SubPc.phase, PutPc.phase, SubPc.uncounted, PutPc.priv]

/-- With nobody responsible, and nobody who will be, every linked task is taken and executed. -/
theorem Inv.all_executed (hi : Inv s h) (hsub : ∀ i, ¬ (s.sub i).uncounted) (hno : ∀ x, ¬ s.holds x) :
    s.tasks.taken = s.tasks.values.length ∧ s.executed = s.tasks.values := by
  have hnone : h = none := by
    cases h with
    | none => rfl
    | some x => exact absurd ((hi.unique x).2 rfl) (hno x)
  subst hnone
  obtain ⟨hq, -⟩ := hi.holder
  have hle : s.tasks.values.length ≤ s.tasks.taken := by
    by_contra hlt
    obtain ⟨i, hu⟩ := hi.linked_by_sub (by omega)
    exact hsub i hu
  have hlt := hi.tasks.taken_lt
  have hlen := hi.tasks.len
  exact ⟨by omega, by rw [hq.order, ← hq.taken, List.take_of_length_le hle]⟩

end protocol

variable [Fintype ι] [DecidableEq ι]

/-- For any number of submitters and any executor: at most one `Run` is pending or active (and
none while a `SubmitSelf` is under way); `Take` in `Run` never yields `nullopt`, and `size_` is
never decremented below zero; the tasks are executed in the order in which they were linked, each
once, and all of them when nothing is in progress; and as long as `tasks_` is not empty somebody is
responsible or about to be. -/
theorem serves_tasks_once_in_order {s : State ι T} (r : Reach (system ι T) anyStep s) :
    (∀ x y, s.holds x → s.holds y → x = y) ∧
    ((∀ k, s.runs k ≠ .terminated) ∧ s.tasks.removed ≤ s.tasks.added) ∧
    (s.executed <+: s.tasks.values ∧
      ((∀ i, s.sub i = .idle) → (∀ x, ¬ s.holds x) → s.executed = s.tasks.values)) ∧
    (∀ n, s.tasks.head = some n → (s.tasks.nodes n).next ≠ none →
      (∃ x, s.holds x) ∨ ∃ i, (s.sub i).uncounted) := by
  obtain ⟨h, hi⟩ := inv_of_reach r
  refine ⟨fun x y hx hy => ?_, ⟨hi.alive, hi.removed_le.trans hi.taken_le⟩,
    ⟨hi.executed_prefix, fun hidle hno => ?_⟩, fun n hn hnext => ?_⟩
  · exact Option.some.inj (((hi.unique x).1 hx).symm.trans ((hi.unique y).1 hy))
  · exact (hi.all_executed (fun i hu => by rw [hidle i] at hu; exact hu) hno).2
  · have hlt : s.tasks.taken < s.tasks.values.length := by
      by_contra hge
      exact hnext ((hi.tasks.next_head hn).2 (by omega))
    cases h with
    | none => exact .inr (hi.linked_by_sub hlt)
    | some x => exact .inl ⟨x, (hi.unique x).2 rfl⟩

/-- Two threads submit; the task of the second one is executed and completed before it was
counted, so that `scheduled_` wraps. -/
def completedBeforeCounted : List (Act (Fin 2) Nat) :=
  [Act.submit 0 5] ++ List.replicate 7 (Act.sub 0 false none) ++ [Act.submit 1 6] ++
    List.replicate 9 (Act.sub 1 false none) ++ List.replicate 22 (Act.run 0 false)

theorem serves_task_before_counted : ∃ s : State (Fin 2) Nat, Reach (system (Fin 2) Nat) anyStep s ∧
    (s.executed = [5, 6] ∧ s.scheduled = 0 - 1) ∧ s.executed <+: s.tasks.values := by
  obtain ⟨s, r, hp⟩ := Reach.of_exec_any (system (Fin 2) Nat) completedBeforeCounted
    (fun s => decide (s.executed = [5, 6] ∧ s.scheduled = 0 - 1)) rfl (by decide)
  exact ⟨s, r, of_decide_eq_true hp, (serves_tasks_once_in_order r).2.2.1.1⟩

end Strand
