import ConcurrencyCourse.Strand.Schedule

/-!
# The lifetime of `Strand::Impl`

| here | there |
| --- | --- |
| `impl` | the protocol of `strand.cpp` (43-69), its steps as in `Strand.step` |
| `handle` | `Strand::impl_` (strand.hpp:51), the `Ref` that `New` makes with count 1 |
| `added`, `RefPc.added` | `SubmitSelf` (50-54) between `AddRef` and `underlying_.Submit` |
| `run` | the reference that goes with a closure, till `ReleaseRef` (68) at the end of its `Run` |
| `.addRef`, `.fetchSub`, `.delete` | `AddRef`, `ReleaseRef`, `DestroySelf` (refer/ref_counted.hpp:20-28, 46) |

The Strand can be destroyed by anybody, a task of its own included, at any moment at which no call of `Submit` is
in progress; after that nobody calls `Submit`. The underlying executor runs each closure once, at any later time.

The nodes of the queue are not freed under anybody, as in `Strand.lean`.

The count is one for the Strand, one for each closure till its `Run` has released it, and one more for each
`SubmitSelf` that has called `AddRef` and not yet passed the reference on to its closure. Every party that still
takes steps on the object is one of these, or is inside of `Submit`, for which the Strand stands.
-/

namespace Strand.Lifetime

open Transition MSQueue Function

/-- What became of one reference. -/
inductive RefPc where
  | held
  -- held by a `Run` whose `SubmitSelf` has called `AddRef`
  | added
  -- `fetch_sub` found 1
  | destroySelf
  | released
  deriving DecidableEq, Repr

structure State (ι T : Type) where
  impl : Strand.State ι T
  ref_count : UInt64
  handle : RefPc
  /-- Thread `i` is in `SubmitSelf`, after `AddRef`. -/
  added : ι → Bool
  run : Nat → RefPc
  /-- Calls of `AddRef`, and the first reference, less the calls of `ReleaseRef`. -/
  refs : Nat
  deletions : Nat

inductive Act (ι T : Type) where
  | submit (i : ι) (task : T)
  | sub (i : ι) (spurious : Bool) (outer : Ptr)
  | run (k : Nat) (spurious : Bool)
  /-- `~Strand`. -/
  | destroy

variable {ι T : Type}

/-- Each reference is in a closure, in a frame or in the Strand, so their number fits into `size_t`. -/
def State.room (s : State ι T) : Bool := s.refs + 1 < 2 ^ 64

/-! ### What a step writes -/

def State.setImpl (s : State ι T) (m : Strand.State ι T) : State ι T := { s with impl := m }

def State.setHandle (s : State ι T) (p : RefPc) : State ι T := { s with handle := p }

def State.setRun (s : State ι T) (k : Nat) (p : RefPc) : State ι T := { s with run := update s.run k p }

/-- `ref_count_.fetch_add(1)`. -/
def State.addRef (s : State ι T) : State ι T := { s with ref_count := s.ref_count + 1, refs := s.refs + 1 }

/-- `ref_count_.fetch_sub(1)`. -/
def State.fetchSub (s : State ι T) : State ι T := { s with ref_count := s.ref_count - 1, refs := s.refs - 1 }

/-- `delete AsT()`. -/
def State.delete (s : State ι T) : State ι T := { s with deletions := s.deletions + 1 }

/-! ### Steps -/

/-- The next step of `ReleaseRef` for this reference. -/
def State.releaseRef (s : State ι T) : RefPc → Option (State ι T × RefPc)
  | .held | .added => some (s.fetchSub, if s.ref_count = 1 then .destroySelf else .released)
  | .destroySelf => some (s.delete, .released)
  | .released => none

variable [DecidableEq ι]

def State.setAdded (s : State ι T) (i : ι) (b : Bool) : State ι T := { s with added := update s.added i b }

/-- The next step of thread `i` in `Submit`. -/
def State.subStep (s : State ι T) (i : ι) (spurious : Bool) (outer : Ptr) : Option (State ι T) :=
  match s.impl.sub i, s.added i with
  | .submitSelf, false => if s.room then some (s.addRef.setAdded i true) else none
  | .submitSelf, true => (Strand.subStep s.impl i spurious outer).map fun m => (s.setImpl m).setAdded i false
  | _, _ => (Strand.subStep s.impl i spurious outer).map s.setImpl

omit [DecidableEq ι] in
/-- The next step of the `k`-th `Run`. -/
def State.runStep (s : State ι T) (k : Nat) (spurious : Bool) : Option (State ι T) :=
  match s.impl.runs k, s.run k with
  | .submitSelf, .held => if s.room then some (s.addRef.setRun k .added) else none
  | .submitSelf, _ => (Strand.runStep s.impl k spurious).map fun m => (s.setImpl m).setRun k .held
  | .finished, p => (s.releaseRef p).map fun r => r.1.setRun k r.2
  | _, _ => (Strand.runStep s.impl k spurious).map s.setImpl

def isIdle : SubPc → Bool
  | .idle => true
  | _ => false

variable [Fintype ι]

def step (s : State ι T) : Act ι T → Option (State ι T)
  | .submit i task => if s.handle = .held then (Strand.step s.impl (.submit i task)).map s.setImpl else none
  | .sub i spurious outer => s.subStep i spurious outer
  | .run k spurious => s.runStep k spurious
  | .destroy => if ∀ i, isIdle (s.impl.sub i) = true then (s.releaseRef s.handle).map fun r => r.1.setHandle r.2 else none

omit [DecidableEq ι] [Fintype ι] in
/-- `Strand(executor)`. -/
def init : State ι T :=
  { impl := Strand.init, ref_count := 1, handle := .held, added := fun _ => false, run := fun _ => .held,
    refs := 1, deletions := 0 }

variable (ι T) in
def system : System (State ι T) (Act ι T) := ⟨fun s => s = init, step⟩

/-! ### Every reference is somebody's -/

section parties

omit [DecidableEq ι] [Fintype ι]

/-- How many references it stands for. -/
def RefPc.count : RefPc → Nat
  | .held => 1
  | .added => 2
  | .destroySelf | .released => 0

/-- Somebody is about to delete the object. -/
def RefPc.dying : RefPc → Nat
  | .destroySelf => 1
  | _ => 0

/-- The reference of a closure and where its `Run` is. -/
def RefOk (r : RunPc T) : RefPc → Prop
  | .held => True
  | .added => r = .submitSelf
  | .destroySelf | .released => r = .finished

/-- One for each reference, and one deletion when there is none, done or about to be done. -/
structure Counted [Fintype ι] (s : State ι T) : Prop where
  absent : ∀ k, s.impl.runs k = .absent ↔ s.impl.spawned ≤ k
  run : ∀ k, RefOk (s.impl.runs k) (s.run k)
  added : ∀ i, s.added i = true → s.impl.sub i = .submitSelf
  idle : s.handle ≠ .held → ∀ i, s.impl.sub i = .idle
  handle : s.handle ≠ .added
  refs : s.refs = s.handle.count + ∑ i, (s.added i).toNat + ∑ k ∈ Finset.range s.impl.spawned, (s.run k).count
  fits : s.refs < 2 ^ 64
  ref_count : s.ref_count.toNat = s.refs
  once : s.handle.dying + ∑ k ∈ Finset.range s.impl.spawned, (s.run k).dying + s.deletions =
    if s.refs = 0 then 1 else 0

/-- A step of `ReleaseRef`: `s'` differs from `s` in the count and the deletions only. -/
structure Releases (s s' : State ι T) (p p' : RefPc) : Prop where
  impl : s'.impl = s.impl
  added : s'.added = s.added
  run : s'.run = s.run
  handle : s'.handle = s.handle
  gone : p' = .destroySelf ∨ p' = .released
  refs : s'.refs + p.count = s.refs + p'.count
  ref_count : s'.ref_count.toNat = s'.refs
  once : p'.dying + s'.deletions + (if s.refs = 0 then 1 else 0) =
    p.dying + s.deletions + if s'.refs = 0 then 1 else 0

variable {s s' : State ι T} {p p' : RefPc} {i : ι} {k : Nat}

theorem releases (hc : s.ref_count.toNat = s.refs) (hp : p.count ≤ s.refs) (ha : p ≠ .added)
    (h : s.releaseRef p = some (s', p')) : Releases s s' p p' := by
  cases p with
  | added => exact absurd rfl ha
  | released => cases h
  | destroySelf =>
    obtain ⟨rfl, rfl⟩ : s.delete = s' ∧ RefPc.released = p' := by simpa [State.releaseRef] using h
    refine ⟨rfl, rfl, rfl, rfl, .inr rfl, rfl, hc, ?_⟩
    change 0 + (s.deletions + 1) + (if s.refs = 0 then 1 else 0) = 1 + s.deletions + if s.refs = 0 then 1 else 0
    omega
  | held =>
    obtain ⟨rfl, rfl⟩ : s.fetchSub = s' ∧ (if s.ref_count = 1 then RefPc.destroySelf else .released) = p' := by
      simpa [State.releaseRef] using h
    have hpos : 1 ≤ s.refs := hp
    have hle : (1 : UInt64) ≤ s.ref_count := by
      rw [UInt64.le_iff_toNat_le, hc]
      exact hpos
    have hone : s.ref_count = 1 ↔ s.refs - 1 = 0 := by
      rw [← UInt64.toNat_inj, hc, UInt64.toNat_one]
      omega
    have hsub : (s.ref_count - 1).toNat = s.refs - 1 := by rw [UInt64.toNat_sub_of_le _ _ hle, hc]; rfl
    refine ⟨rfl, rfl, rfl, rfl, ?_, ?_, hsub, ?_⟩
    · split
      · exact .inl rfl
      · exact .inr rfl
    · have hz : (if s.ref_count = 1 then RefPc.destroySelf else .released).count = 0 := by split <;> rfl
      rw [hz]
      change s.refs - 1 + 1 = s.refs + 0
      omega
    · change _ + s.deletions + _ = 0 + s.deletions + if s.refs - 1 = 0 then 1 else 0
      by_cases h1 : s.refs - 1 = 0
      · rw [if_pos (hone.2 h1), if_pos h1, if_neg (by omega)]
        change 1 + s.deletions + 0 = _
        omega
      · rw [if_neg (hone.not.2 h1), if_neg h1, if_neg (by omega)]
        rfl

/-- One `Run` moves, or its reference. -/
theorem refOk_update {f f' : Nat → RunPc T} {g : Nat → RefPc} (h : ∀ j, RefOk (f j) (g j))
    (hf : ∀ j, j ≠ k → f' j = f j) (hk : RefOk (f' k) p) (j : Nat) : RefOk (f' j) (update g k p j) := by
  rcases eq_or_ne j k with rfl | hjk
  · rwa [update_self]
  · rw [update_of_ne hjk, hf j hjk]
    exact h j

variable [Fintype ι] (hi : Counted s)

include hi

theorem Counted.spawned_of_run (h : s.impl.runs k ≠ .absent) : k ∈ Finset.range s.impl.spawned := by
  rw [Finset.mem_range]
  by_contra hge
  exact h ((hi.absent k).2 (by omega))

theorem Counted.run_le (hk : k ∈ Finset.range s.impl.spawned) : (s.run k).count ≤ s.refs := by
  have hle : (s.run k).count ≤ ∑ k ∈ Finset.range s.impl.spawned, (s.run k).count :=
    Finset.single_le_sum (f := fun k => (s.run k).count) (fun _ _ => Nat.zero_le _) hk
  have h := hi.refs
  omega

theorem Counted.handle_le : s.handle.count ≤ s.refs := by
  have h := hi.refs
  omega

theorem Counted.handle_of_sub (h : s.impl.sub i ≠ .idle) : s.handle = .held := by
  by_contra hne
  exact h (hi.idle hne i)

theorem Counted.added_of_sub (h : s.impl.sub i ≠ .submitSelf) : s.added i = false := by
  rcases ha : s.added i with - | -
  · rfl
  · exact absurd (hi.added i ha) h

/-- `AddRef` while there is a reference. -/
theorem Counted.room_addRef (hr : s.room = true) (hpos : 0 < s.refs) :
    s.refs + 1 < 2 ^ 64 ∧ s.addRef.ref_count.toNat = s.refs + 1 ∧
      (if s.refs = 0 then 1 else 0) = if s.refs + 1 = 0 then 1 else 0 := by
  have hlt : s.refs + 1 < 2 ^ 64 := of_decide_eq_true hr
  have hc := hi.ref_count
  refine ⟨hlt, ?_, ?_⟩
  · change (s.ref_count + 1).toNat = s.refs + 1
    rw [UInt64.toNat_add, hc, UInt64.toNat_one, Nat.mod_eq_of_lt hlt]
  · rw [if_neg hpos.ne', if_neg (Nat.succ_ne_zero _)]

/-- `AddRef` in `SubmitSelf` of thread `i`. -/
theorem Counted.addRef_sub [DecidableEq ι] (hr : s.room = true) (hs : s.impl.sub i = .submitSelf)
    (ha : s.added i = false) : Counted (s.addRef.setAdded i true) := by
  have hheld : s.handle = .held := hi.handle_of_sub (by rw [hs]; simp)
  have hpos : 0 < s.refs := by
    have h := hi.handle_le
    rw [hheld] at h
    exact h
  obtain ⟨hlt, hc, hz⟩ := hi.room_addRef hr hpos
  have hsum := Threads.sum_update_add Bool.toNat s.added i true
  have hrefs := hi.refs
  rw [ha] at hsum
  refine ⟨hi.absent, hi.run, fun j hj => ?_, hi.idle, hi.handle, ?_, hlt, hc, hi.once.trans hz⟩
  · rcases eq_or_ne j i with rfl | hji
    · exact hs
    · change update s.added i true j = true at hj
      rw [update_of_ne hji] at hj
      exact hi.added j hj
  · simp only [State.addRef, State.setAdded, Bool.toNat_true, Bool.toNat_false] at hsum ⊢
    omega

/-- `AddRef` in `SubmitSelf` of the `k`-th `Run`. -/
theorem Counted.addRef_run (hr : s.room = true) (hs : s.impl.runs k = .submitSelf) (ha : s.run k = .held) :
    Counted (s.addRef.setRun k .added) := by
  have hk := hi.spawned_of_run (k := k) (by rw [hs]; simp)
  have hpos : 0 < s.refs := by
    have h := hi.run_le hk
    rw [ha] at h
    exact h
  obtain ⟨hlt, hc, hz⟩ := hi.room_addRef hr hpos
  have hsum := Threads.sum_update_add_of_mem RefPc.count s.run hk .added
  have hdy := Threads.sum_update_add_of_mem RefPc.dying s.run hk .added
  have hrefs := hi.refs
  rw [ha] at hsum hdy
  change _ + 1 = _ + 2 at hsum
  change _ + 0 = _ + 0 at hdy
  refine ⟨hi.absent, refOk_update hi.run (fun _ _ => rfl) hs, hi.added, hi.idle, hi.handle, ?_, hlt, hc, ?_⟩
  · simp only [State.addRef, State.setRun]
    omega
  · refine Eq.trans ?_ hz
    rw [← hi.once]
    simp only [State.addRef, State.setRun]
    omega

/-- `ReleaseRef` at the end of the `k`-th `Run`. -/
theorem Counted.release_run (hs : s.impl.runs k = .finished) (h : s.releaseRef (s.run k) = some (s', p')) :
    Counted (s'.setRun k p') := by
  have hk := hi.spawned_of_run (k := k) (by rw [hs]; simp)
  have ha : s.run k ≠ .added := by
    intro ha
    have hok := hi.run k
    rw [hs, ha] at hok
    cases hok
  have hr := releases hi.ref_count (hi.run_le hk) ha h
  have hok : RefOk (T := T) .finished p' := by rcases hr.gone with rfl | rfl <;> rfl
  have hsum := Threads.sum_update_add_of_mem RefPc.count s.run hk p'
  have hdy := Threads.sum_update_add_of_mem RefPc.dying s.run hk p'
  have hrefs := hi.refs
  have honce := hi.once
  have hcount : p'.count = 0 := by rcases hr.gone with rfl | rfl <;> rfl
  have hrefs' := hr.refs
  refine ⟨fun j => ?_, fun j => ?_, fun j hj => ?_, fun hne j => ?_, ?_, ?_, ?_, hr.ref_count, ?_⟩
  · simp only [State.setRun, hr.impl]
    exact hi.absent j
  · simp only [State.setRun, hr.impl, hr.run]
    exact refOk_update hi.run (fun _ _ => rfl) (by rwa [hs]) j
  · simp only [State.setRun, hr.impl, hr.added] at hj ⊢
    exact hi.added j hj
  · simp only [State.setRun, hr.impl, hr.handle] at hne ⊢
    exact hi.idle hne j
  · simp only [State.setRun, hr.handle]
    exact hi.handle
  · simp only [State.setRun, hr.handle, hr.added, hr.impl, hr.run]
    omega
  · have hfits := hi.fits
    simp only [State.setRun]
    omega
  · have hdone := hr.once
    simp only [State.setRun, hr.handle, hr.impl, hr.run]
    omega

/-- `~Strand`. -/
theorem Counted.release_handle (hs : ∀ i, s.impl.sub i = .idle) (h : s.releaseRef s.handle = some (s', p')) :
    Counted (s'.setHandle p') := by
  have hr := releases hi.ref_count hi.handle_le hi.handle h
  have hrefs := hi.refs
  have honce := hi.once
  have hcount : p'.count = 0 := by rcases hr.gone with rfl | rfl <;> rfl
  have hrefs' := hr.refs
  refine ⟨fun j => ?_, fun j => ?_, fun j hj => ?_, fun _ j => ?_, ?_, ?_, ?_, hr.ref_count, ?_⟩
  · simp only [State.setHandle, hr.impl]
    exact hi.absent j
  · simp only [State.setHandle, hr.impl, hr.run]
    exact hi.run j
  · simp only [State.setHandle, hr.impl, hr.added] at hj ⊢
    exact hi.added j hj
  · simp only [State.setHandle, hr.impl]
    exact hs j
  · rcases hr.gone with rfl | rfl <;> simp [State.setHandle]
  · simp only [State.setHandle, hr.added, hr.impl, hr.run]
    omega
  · have hfits := hi.fits
    simp only [State.setHandle]
    omega
  · have hdone := hr.once
    simp only [State.setHandle, hr.impl, hr.run]
    omega

/-- A step that neither adds nor releases a reference, and submits no closure. -/
theorem Counted.move {m : Strand.State ι T} (hsp : m.spawned = s.impl.spawned)
    (habs : ∀ k, m.runs k = .absent ↔ m.spawned ≤ k) (hrun : ∀ k, RefOk (m.runs k) (s.run k))
    (hadd : ∀ i, s.added i = true → m.sub i = .submitSelf) (hidle : s.handle ≠ .held → ∀ i, m.sub i = .idle) :
    Counted (s.setImpl m) := by
  refine ⟨habs, hrun, hadd, hidle, hi.handle, ?_, hi.fits, hi.ref_count, ?_⟩
  · simp only [State.setImpl, hsp]
    exact hi.refs
  · simp only [State.setImpl, hsp]
    exact hi.once

/-- The reference of a closure that is not there yet. -/
theorem Counted.run_spawned : s.run s.impl.spawned = .held := by
  have hok := hi.run s.impl.spawned
  rw [(hi.absent _).2 le_rfl] at hok
  cases hr : s.run s.impl.spawned <;> rw [hr] at hok <;> first | rfl | cases hok

/-- `underlying_.Submit` by thread `i`: the closure gets the reference that `AddRef` has added. -/
theorem Counted.spawn_sub [DecidableEq ι] (hs : s.impl.sub i = .submitSelf) (ha : s.added i = true) :
    Counted ((s.setImpl (s.impl.spawn.setSub i .idle)).setAdded i false) := by
  have hsum := Threads.sum_update_add Bool.toNat s.added i false
  have hnew := hi.run_spawned
  have hrefs := hi.refs
  have hne : ∀ j, update s.added i false j = true → j ≠ i ∧ s.added j = true := by
    intro j hj
    rcases eq_or_ne j i with rfl | hji
    · rw [update_self] at hj
      cases hj
    · rw [update_of_ne hji] at hj
      exact ⟨hji, hj⟩
  rw [ha] at hsum
  refine ⟨fun j => ?_, fun j => ?_, fun j hj => ?_, fun hh j => ?_, hi.handle, ?_, hi.fits, hi.ref_count, ?_⟩
  · change update s.impl.runs s.impl.spawned .pending j = .absent ↔ s.impl.spawned + 1 ≤ j
    rcases eq_or_ne j s.impl.spawned with rfl | hjs
    · simp
    · rw [update_of_ne hjs, hi.absent j]
      omega
  · change RefOk (update s.impl.runs s.impl.spawned .pending j) (s.run j)
    rcases eq_or_ne j s.impl.spawned with rfl | hjk
    · rw [hnew]
      trivial
    · rw [update_of_ne hjk]
      exact hi.run j
  · obtain ⟨hji, hadd⟩ := hne j hj
    exact (update_of_ne hji _ _).trans (hi.added j hadd)
  · exact absurd (hi.handle_of_sub (i := i) (by rw [hs]; simp)) hh
  · change s.refs = s.handle.count + ∑ j, (update s.added i false j).toNat +
      ∑ k ∈ Finset.range (s.impl.spawned + 1), (s.run k).count
    rw [Finset.sum_range_succ, hnew]
    change _ = _ + (_ + 1)
    simp only [Bool.toNat_true, Bool.toNat_false] at hsum
    omega
  · change s.handle.dying + ∑ k ∈ Finset.range (s.impl.spawned + 1), (s.run k).dying + s.deletions = _
    rw [Finset.sum_range_succ, hnew]
    exact hi.once

/-- `underlying_.Submit` by the `k`-th `Run`. -/
theorem Counted.spawn_run (hs : s.impl.runs k = .submitSelf) (ha : s.run k = .added) :
    Counted ((s.setImpl (s.impl.spawn.setRun k .finished)).setRun k .held) := by
  have hk := hi.spawned_of_run (k := k) (by rw [hs]; simp)
  have hlt := Finset.mem_range.1 hk
  have hnew := hi.run_spawned
  have hsum := Threads.sum_update_add_of_mem RefPc.count s.run hk .held
  have hdy := Threads.sum_update_add_of_mem RefPc.dying s.run hk .held
  have hrefs := hi.refs
  rw [ha] at hsum hdy
  change _ + 2 = _ + 1 at hsum
  change _ + 0 = _ + 0 at hdy
  have hruns : ∀ j, j ≠ k → j ≠ s.impl.spawned → (s.impl.spawn.setRun k .finished).runs j = s.impl.runs j :=
    fun j h1 h2 => (update_of_ne h1 _ _).trans (update_of_ne h2 _ _)
  have hnewrun : (s.impl.spawn.setRun k .finished).runs s.impl.spawned = .pending :=
    (update_of_ne (by omega) _ _).trans (update_self _ _ _)
  refine ⟨fun j => ?_, fun j => ?_, hi.added, hi.idle, hi.handle, ?_, hi.fits, hi.ref_count, ?_⟩
  · change (s.impl.spawn.setRun k .finished).runs j = .absent ↔ s.impl.spawned + 1 ≤ j
    rcases eq_or_ne j k with rfl | hjk
    · simp only [Strand.State.setRun, update_self]
      exact ⟨(by rintro ⟨⟩), fun h => by omega⟩
    · rcases eq_or_ne j s.impl.spawned with rfl | hjs
      · rw [hnewrun]
        exact ⟨(by rintro ⟨⟩), fun h => by omega⟩
      · rw [hruns j hjk hjs, hi.absent j]
        omega
  · change RefOk ((s.impl.spawn.setRun k .finished).runs j) (update s.run k .held j)
    rcases eq_or_ne j k with rfl | hjk
    · rw [update_self]
      trivial
    · rw [update_of_ne hjk]
      rcases eq_or_ne j s.impl.spawned with rfl | hjs
      · rw [hnew]
        trivial
      · rw [hruns j hjk hjs]
        exact hi.run j
  · change s.refs = s.handle.count + ∑ j, (s.added j).toNat +
      ∑ j ∈ Finset.range (s.impl.spawned + 1), (update s.run k .held j).count
    rw [Finset.sum_range_succ, update_of_ne (by omega), hnew]
    change _ = _ + (_ + 1)
    omega
  · change s.handle.dying + ∑ j ∈ Finset.range (s.impl.spawned + 1), (update s.run k .held j).dying +
      s.deletions = _
    rw [Finset.sum_range_succ, update_of_ne (by omega), hnew]
    refine Eq.trans ?_ hi.once
    change _ + (_ + 0) + _ = _
    omega

end parties

/-! ### What the steps of the protocol leave alone -/

section frame

variable {m m' : Strand.State ι T} {i : ι} {k : Nat} {sp : Bool} {o : Ptr}

omit [Fintype ι] in
theorem subStep_frame (h : Strand.subStep m i sp o = some m') (hs : m.sub i ≠ .submitSelf) :
    m'.spawned = m.spawned ∧ m'.runs = m.runs ∧ m.sub i ≠ .idle ∧ ∀ j, j ≠ i → m'.sub j = m.sub j := by
  unfold Strand.subStep at h
  split at h
  · cases h
  · rename_i hp
    obtain rfl := Option.some.inj h
    exact ⟨rfl, rfl, by simp [hp], fun j hj => update_of_ne hj _ _⟩
  · rename_i hp
    obtain ⟨r, -, rfl⟩ := Option.map_eq_some_iff.1 h
    exact ⟨rfl, rfl, by simp [hp], fun j hj => update_of_ne hj _ _⟩
  · contradiction

omit [DecidableEq ι] [Fintype ι] in
theorem runStep_frame (h : Strand.runStep m k sp = some m') (hs : m.runs k ≠ .submitSelf) :
    m'.spawned = m.spawned ∧ m'.sub = m.sub ∧
      (m.runs k ≠ .absent ∧ m.runs k ≠ .finished ∧ m'.runs k ≠ .absent) ∧ ∀ j, j ≠ k → m'.runs j = m.runs j := by
  unfold Strand.runStep at h
  split at h
  case h_1 | h_2 | h_3 => cases h
  case h_10 => contradiction
  case h_7 =>
    rename_i hp
    obtain ⟨r, -, rfl⟩ := Option.map_eq_some_iff.1 h
    exact ⟨rfl, rfl, by simp [hp, Strand.State.setRun], fun j hj => update_of_ne hj _ _⟩
  all_goals
    rename_i hp
    obtain rfl := Option.some.inj h
    refine ⟨rfl, rfl, ⟨by simp [hp], by simp [hp], ?_⟩, fun j hj => update_of_ne hj _ _⟩
    simp only [Strand.State.setRun, update_self]
    intro hn
    first
    | cases hn
    | split at hn <;> cases hn

end frame

section steps

variable {s s' : State ι T} {i : ι} {k : Nat} {sp : Bool} {o : Ptr}

omit [Fintype ι] in
theorem subStep_cases (h : s.subStep i sp o = some s') :
    (s.impl.sub i = .submitSelf ∧ s.added i = false ∧ s.room = true ∧ s' = s.addRef.setAdded i true) ∨
    (s.impl.sub i = .submitSelf ∧ s.added i = true ∧
      s' = (s.setImpl (s.impl.spawn.setSub i .idle)).setAdded i false) ∨
    (s.impl.sub i ≠ .submitSelf ∧ ∃ m, Strand.subStep s.impl i sp o = some m ∧ s' = s.setImpl m) := by
  unfold State.subStep at h
  split at h
  · rename_i hs ha
    split at h
    · rename_i hr
      exact .inl ⟨hs, ha, hr, (Option.some.inj h).symm⟩
    · cases h
  · rename_i hs ha
    rw [Strand.subStep, hs] at h
    exact .inr (.inl ⟨hs, ha, (Option.some.inj h).symm⟩)
  · rename_i h1 h2
    obtain ⟨m, hm, rfl⟩ := Option.map_eq_some_iff.1 h
    refine .inr (.inr ⟨fun hs => ?_, m, hm, rfl⟩)
    rcases ha : s.added i with - | -
    · exact h1 hs ha
    · exact h2 hs ha

omit [DecidableEq ι] [Fintype ι] in
theorem runStep_cases (h : s.runStep k sp = some s') :
    (s.impl.runs k = .submitSelf ∧ s.run k = .held ∧ s.room = true ∧ s' = s.addRef.setRun k .added) ∨
    (s.impl.runs k = .submitSelf ∧ s.run k ≠ .held ∧
      s' = (s.setImpl (s.impl.spawn.setRun k .finished)).setRun k .held) ∨
    (s.impl.runs k = .finished ∧ ∃ r, s.releaseRef (s.run k) = some r ∧ s' = r.1.setRun k r.2) ∨
    (s.impl.runs k ≠ .submitSelf ∧ ∃ m, Strand.runStep s.impl k sp = some m ∧ s' = s.setImpl m) := by
  unfold State.runStep at h
  split at h
  · rename_i hs hp
    split at h
    · rename_i hr
      exact .inl ⟨hs, hp, hr, (Option.some.inj h).symm⟩
    · cases h
  · rename_i hs hp
    rw [Strand.runStep, hs] at h
    exact .inr (.inl ⟨hs, hp, (Option.some.inj h).symm⟩)
  · rename_i hs
    obtain ⟨r, hr, rfl⟩ := Option.map_eq_some_iff.1 h
    exact .inr (.inr (.inl ⟨hs, r, hr, rfl⟩))
  · rename_i hs _ _
    obtain ⟨m, hm, rfl⟩ := Option.map_eq_some_iff.1 h
    exact .inr (.inr (.inr ⟨hs, m, hm, rfl⟩))

/-- Every step keeps the count, and is a step of the protocol or none. -/
theorem counted_subStep (hi : Counted s) (h : s.subStep i sp o = some s') :
    Counted s' ∧ (s'.impl = s.impl ∨ Strand.step s.impl (.sub i sp o) = some s'.impl) := by
  obtain ⟨hs, ha, hr, rfl⟩ | ⟨hs, ha, rfl⟩ | ⟨hs, m, hm, rfl⟩ := subStep_cases h
  · exact ⟨hi.addRef_sub hr hs ha, .inl rfl⟩
  · refine ⟨hi.spawn_sub hs ha, .inr ?_⟩
    rw [Strand.step, Strand.subStep, hs]
    rfl
  · obtain ⟨hsp, hruns, hidle, hsub⟩ := subStep_frame hm hs
    refine ⟨hi.move hsp (fun k => ?_) (fun k => ?_) (fun j hj => ?_) (fun hh => ?_), .inr hm⟩
    · rw [hruns, hsp]
      exact hi.absent k
    · rw [hruns]
      exact hi.run k
    · have hji : j ≠ i := by
        rintro rfl
        exact hs (hi.added j hj)
      rw [hsub j hji]
      exact hi.added j hj
    · exact absurd (hi.handle_of_sub hidle) hh

theorem counted_runStep (hi : Counted s) (h : s.runStep k sp = some s') :
    Counted s' ∧ (s'.impl = s.impl ∨ Strand.step s.impl (.run k sp) = some s'.impl) := by
  obtain ⟨hs, ha, hr, rfl⟩ | ⟨hs, ha, rfl⟩ | ⟨hs, ⟨r, p⟩, hr, rfl⟩ | ⟨hs, m, hm, rfl⟩ := runStep_cases h
  · exact ⟨hi.addRef_run hr hs ha, .inl rfl⟩
  · have hok := hi.run k
    have hadd : s.run k = .added := by
      cases hp : s.run k with
      | held => exact absurd hp ha
      | added => rfl
      | destroySelf | released => rw [hs, hp] at hok; cases hok
    refine ⟨hi.spawn_run hs hadd, .inr ?_⟩
    rw [Strand.step, Strand.runStep, hs]
    rfl
  · have hk := hi.release_run hs hr
    refine ⟨hk, .inl ?_⟩
    have ha : s.run k ≠ .added := by
      intro ha
      have hok := hi.run k
      rw [hs, ha] at hok
      cases hok
    exact (releases hi.ref_count (hi.run_le (hi.spawned_of_run (by rw [hs]; simp))) ha hr).impl
  · obtain ⟨hsp, hsub, ⟨hab, hfin, hab'⟩, hruns⟩ := runStep_frame hm hs
    have hk := Finset.mem_range.1 (hi.spawned_of_run hab)
    have hheld : s.run k = .held := by
      have hok := hi.run k
      cases hp : s.run k with
      | held => rfl
      | added => rw [hp] at hok; exact absurd hok hs
      | destroySelf | released => rw [hp] at hok; exact absurd hok hfin
    refine ⟨hi.move hsp (fun j => ?_) (fun j => ?_) (fun j hj => ?_) (fun hh j => ?_), .inr hm⟩
    · rw [hsp]
      rcases eq_or_ne j k with rfl | hjk
      · exact ⟨fun h => absurd h hab', fun h => by omega⟩
      · rw [hruns j hjk]
        exact hi.absent j
    · rcases eq_or_ne j k with rfl | hjk
      · rw [hheld]
        trivial
      · rw [hruns j hjk]
        exact hi.run j
    · rw [hsub]
      exact hi.added j hj
    · rw [hsub]
      exact hi.idle hh j

theorem isIdle_iff {p : SubPc} : isIdle p = true ↔ p = .idle := by cases p <;> simp [isIdle]

theorem counted_step {a : Act ι T} (hi : Counted s) (h : step s a = some s') :
    Counted s' ∧ (s'.impl = s.impl ∨ ∃ b, Strand.step s.impl b = some s'.impl) := by
  cases a with
  | submit i task =>
    simp only [step] at h
    split at h
    · rename_i hheld
      obtain ⟨m, hm, rfl⟩ := Option.map_eq_some_iff.1 h
      refine ⟨?_, .inr ⟨_, hm⟩⟩
      simp only [Strand.step] at hm
      split at hm
      · rename_i hidle
        split at hm
        · obtain rfl := Option.some.inj hm
          refine hi.move rfl hi.absent hi.run (fun j hj => ?_) (fun hh => absurd hheld hh)
          have hji : j ≠ i := by
            rintro rfl
            rw [hi.added j hj] at hidle
            cases hidle
          exact (update_of_ne hji _ _).trans (hi.added j hj)
        · cases hm
      · cases hm
    · cases h
  | sub i sp o =>
    obtain ⟨h1, h2⟩ := counted_subStep hi h
    exact ⟨h1, h2.imp_right fun h => ⟨_, h⟩⟩
  | run k sp =>
    obtain ⟨h1, h2⟩ := counted_runStep hi h
    exact ⟨h1, h2.imp_right fun h => ⟨_, h⟩⟩
  | destroy =>
    simp only [step] at h
    split at h
    · rename_i hidle
      obtain ⟨⟨r, p⟩, hr, rfl⟩ := Option.map_eq_some_iff.1 h
      refine ⟨hi.release_handle (fun i => isIdle_iff.1 (hidle i)) hr, .inl ?_⟩
      exact (releases hi.ref_count hi.handle_le hi.handle hr).impl
    · cases h

omit [DecidableEq ι] in
theorem counted_init : Counted (init : State ι T) where
  absent k := ⟨fun _ => Nat.zero_le k, fun _ => rfl⟩
  run _ := trivial
  added _ h := by cases h
  idle _ _ := rfl
  handle := by simp [init]
  refs := by simp [init, Strand.init, RefPc.count]
  fits := by simp [init]
  ref_count := rfl
  once := by simp [init, Strand.init, RefPc.dying]

/-- Runs of the Strand are runs of the protocol. -/
theorem counted_of_reach (r : Reach (system ι T) anyStep s) :
    Counted s ∧ Reach (Strand.system ι T) anyStep s.impl := by
  refine r.invariant (I := fun s => Counted s ∧ Reach (Strand.system ι T) anyStep s.impl) ?_ ?_
  · rintro _ rfl
    exact ⟨counted_init, .init rfl⟩
  · rintro s a s' ⟨hi, hr⟩ - h
    obtain ⟨hi', he | ⟨b, hb⟩⟩ := counted_step hi h
    · exact ⟨hi', he ▸ hr⟩
    · exact ⟨hi', hr.step trivial hb⟩

end steps

/-! ### What the count says -/

section results

variable {s : State ι T} {k : Nat}

omit [DecidableEq ι] in
theorem Counted.deletions_le (hi : Counted s) : s.deletions ≤ 1 := by
  have h := hi.once
  split at h <;> omega

theorem not_held {p : RefPc} (ha : p ≠ .added) (hc : p.count = 0) (hd : p.dying = 0) : p = .released := by
  cases p with
  | held => cases hc
  | added => exact absurd rfl ha
  | destroySelf => cases hd
  | released => rfl

omit [DecidableEq ι] in
theorem Counted.finished_of_released (hi : Counted s) (h : s.run k = .released) : s.impl.runs k = .finished := by
  have hok := hi.run k
  rwa [h] at hok

omit [DecidableEq ι] in
theorem Counted.run_ne_added (hi : Counted s) (h : s.impl.runs k = .finished) : s.run k ≠ .added := by
  intro ha
  have hok := hi.run k
  rw [h, ha] at hok
  cases hok

omit [DecidableEq ι] in
/-- When nobody stands for a reference, the object is deleted. -/
theorem Counted.deleted_of_released (hi : Counted s) (hh : s.handle = .released)
    (hr : ∀ k < s.impl.spawned, s.run k = .released) : s.deletions = 1 := by
  have hrun : ∀ f : RefPc → Nat, f .released = 0 → ∑ k ∈ Finset.range s.impl.spawned, f (s.run k) = 0 := by
    intro f hf
    refine Finset.sum_eq_zero fun k hk => ?_
    rw [hr k (Finset.mem_range.1 hk), hf]
  have hadd : ∑ i, (s.added i).toNat = 0 := by
    refine Finset.sum_eq_zero fun i _ => ?_
    rw [hi.added_of_sub (by rw [hi.idle (by rw [hh]; simp) i]; simp)]
    rfl
  have hrefs := hi.refs
  have honce := hi.once
  rw [hh, hrun _ rfl, hadd] at hrefs
  change s.refs = 0 at hrefs
  rw [hh, hrun _ rfl, if_pos hrefs] at honce
  change 0 + 0 + s.deletions = 1 at honce
  omega

omit [DecidableEq ι] in
/-- And it is deleted only then. -/
theorem Counted.released_of_deleted (hi : Counted s) (hd : s.deletions ≠ 0) :
    s.handle = .released ∧ ∀ k < s.impl.spawned, s.run k = .released := by
  have honce := hi.once
  have hrefs := hi.refs
  have hz : s.refs = 0 := by
    by_contra hne
    rw [if_neg hne] at honce
    omega
  rw [if_pos hz] at honce
  rw [hz] at hrefs
  have hsum : ∀ f : RefPc → Nat, ∑ k ∈ Finset.range s.impl.spawned, f (s.run k) = 0 →
      ∀ k < s.impl.spawned, f (s.run k) = 0 := by
    intro f hf k hk
    exact Finset.sum_eq_zero_iff.1 hf k (Finset.mem_range.2 hk)
  refine ⟨not_held hi.handle (by omega) (by omega), fun k hk => ?_⟩
  have hc := hsum RefPc.count (by omega) k hk
  exact not_held (fun ha => by rw [ha] at hc; cases hc) hc (hsum RefPc.dying (by omega) k hk)

/-- Then nobody takes a step any more. -/
theorem Counted.over (hi : Counted s) (hh : s.handle = .released)
    (hr : ∀ k < s.impl.spawned, s.run k = .released) (a : Act ι T) : step s a = none := by
  have hidle := hi.idle (by rw [hh]; simp)
  cases a with
  | submit i task => exact if_neg (by rw [hh]; simp)
  | sub i sp o => rw [step, State.subStep, hidle i, Strand.subStep, hidle i]; rfl
  | run k sp =>
    rw [step, State.runStep]
    by_cases hk : k < s.impl.spawned
    · rw [hi.finished_of_released (hr k hk), hr k hk]
      rfl
    · have hab := (hi.absent k).2 (by omega)
      rw [Strand.runStep, hab]
      rfl
  | destroy =>
    simp only [step, hh, State.releaseRef, Option.map_none, ite_self]

omit [DecidableEq ι] in
/-- A `Run` that is not finished has a next step, if `AddRef` has room. -/
theorem runStep_isSome {h : Option (Holder ι)} (hb : Strand.Inv s.impl h)
    (ha : (s.impl.runs k).active = true) (hroom : s.impl.runs k = .submitSelf → s.room = true) :
    (s.runStep k false).isSome = true := by
  have hold := (hb.unique (.run k)).1 ha
  subst hold
  have hok := hb.holder.1
  unfold State.runStep
  split
  · rename_i hs _
    rw [if_pos (hroom hs)]
    rfl
  · rename_i hs _
    rw [Strand.runStep, hs]
    rfl
  · rename_i hs
    rw [hs] at ha
    cases ha
  · rw [Option.isSome_map]
    unfold Strand.runStep
    split
    case h_1 h => rw [h] at ha; cases ha
    case h_2 h => rw [h] at ha; cases ha
    case h_3 h => rw [h] at ha; cases ha
    case h_7 pc proc h1 h2 h =>
      rw [h] at hok
      rw [Option.isSome_map]
      refine takeStep_isSome hb.tasks hok.1 ?_
      cases pc with
      | done r =>
        cases r with
        | none => exact absurd rfl h1
        | some task => exact absurd rfl (h2 task)
      | _ => rfl
    all_goals rfl

/-- When the Strand is destroyed, somebody can go on as long as the object is not deleted. -/
theorem Counted.deleted_of_stuck {h : Option (Holder ι)} (hi : Counted s) (hb : Strand.Inv s.impl h)
    (hh : s.handle ≠ .held) (hstuck : ∀ a, step s a = none) : s.deletions = 1 := by
  have hidle := hi.idle hh
  have hhandle : s.handle = .released := by
    have hd := hstuck .destroy
    rw [step, if_pos fun i => isIdle_iff.2 (hidle i), Option.map_eq_none_iff] at hd
    cases hp : s.handle with
    | held => exact absurd hp hh
    | added => exact absurd hp hi.handle
    | destroySelf => rw [hp] at hd; cases hd
    | released => rfl
  have hfin : ∀ k, s.impl.runs k = .finished → s.run k = .released := by
    intro k hk
    have hr := hstuck (.run k false)
    rw [step, State.runStep, hk] at hr
    have hr := Option.map_eq_none_iff.1 hr
    cases hp : s.run k with
    | held => rw [hp] at hr; cases hr
    | added => exact absurd hp (hi.run_ne_added hk)
    | destroySelf => rw [hp] at hr; cases hr
    | released => rfl
  have hdone : ∀ k, k < s.impl.spawned → (s.impl.runs k).active = false → s.run k = .released := by
    intro k hk hact
    refine hfin k ?_
    cases hp : s.impl.runs k with
    | absent => exact absurd ((hi.absent k).1 hp) (by omega)
    | finished => rfl
    | terminated => exact absurd hp (hb.alive k)
    | pending | take _ _ | runTasks _ _ | submitSelf => rw [hp] at hact; cases hact
  refine hi.deleted_of_released hhandle fun k hk => hdone k hk ?_
  by_contra hact
  -- the only active `Run` has a step: it holds the only reference, so there is room for one more
  have hact : (s.impl.runs k).active = true := by simpa using hact
  have hsome : (s.runStep k false).isSome = true := by
    refine runStep_isSome hb hact fun hs => ?_
    have hheld : s.run k = .held := by
      by_contra hne
      have hr := hstuck (.run k false)
      rw [step, State.runStep, hs, Strand.runStep, hs] at hr
      cases hp : s.run k <;> rw [hp] at hr hne <;> first | cases hr | exact hne rfl
    have hsum : ∑ j ∈ Finset.range s.impl.spawned, (s.run j).count = (s.run k).count := by
      refine Finset.sum_eq_single k (fun j hj hjk => ?_) fun hn => absurd (Finset.mem_range.2 hk) hn
      have hother : (s.impl.runs j).active = false := by
        by_contra hj
        have hj : s.impl.holds (.run j) := by simpa [Strand.State.holds] using hj
        have heq := ((hb.unique (.run k)).1 hact).symm.trans ((hb.unique (.run j)).1 hj)
        cases heq
        exact hjk rfl
      rw [hdone j (Finset.mem_range.1 hj) hother]
      rfl
    have hadd : ∑ i, (s.added i).toNat = 0 := by
      refine Finset.sum_eq_zero fun i _ => ?_
      rw [hi.added_of_sub (by rw [hidle i]; simp)]
      rfl
    have hrefs := hi.refs
    rw [hhandle, hsum, hheld, hadd] at hrefs
    change s.refs = 1 at hrefs
    rw [State.room, hrefs]
    decide
  rw [← step, hstuck (.run k false)] at hsome
  cases hsome

/-- For any number of threads in `Submit` and any executor that runs each closure once, with the Strand destroyed at
any moment at which no call of `Submit` is in progress: once the object is deleted nobody takes a step in `Submit`,
`SubmitSelf`, `Run` or `~Strand` any more; it is deleted at most once, and exactly when the Strand is destroyed and
every `Run` has finished and released its reference; then every task that was put into `tasks_` is taken and
executed; and when the Strand is destroyed and nobody can take a step, it is deleted. -/
theorem impl_deleted_once (r : Reach (system ι T) anyStep s) :
    (s.deletions ≠ 0 → ∀ a, step s a = none) ∧
    s.deletions ≤ 1 ∧
    (s.deletions = 1 ↔ s.handle = .released ∧
      ∀ k < s.impl.spawned, s.impl.runs k = .finished ∧ s.run k = .released) ∧
    (s.deletions = 1 → s.impl.tasks.taken = s.impl.tasks.values.length ∧
      s.impl.executed = s.impl.tasks.values) ∧
    (s.handle ≠ .held → (∀ a, step s a = none) → s.deletions = 1) := by
  obtain ⟨hi, hr⟩ := counted_of_reach r
  obtain ⟨h, hb⟩ := inv_of_reach hr
  refine ⟨fun hd => ?_, hi.deletions_le, ⟨fun hd => ?_, fun ⟨h1, h2⟩ => ?_⟩, fun hd => ?_,
    fun hh hstuck => hi.deleted_of_stuck hb hh hstuck⟩
  · obtain ⟨h1, h2⟩ := hi.released_of_deleted hd
    exact hi.over h1 h2
  · obtain ⟨h1, h2⟩ := hi.released_of_deleted (by omega)
    exact ⟨h1, fun k hk => ⟨hi.finished_of_released (h2 k hk), h2 k hk⟩⟩
  · exact hi.deleted_of_released h1 fun k hk => (h2 k hk).2
  · obtain ⟨h1, h2⟩ := hi.released_of_deleted (by omega)
    have hidle := hi.idle (by rw [h1]; simp)
    refine hb.all_executed (fun i hu => ?_) fun x hx => ?_
    · rw [hidle i] at hu
      exact hu
    · cases x with
      | sub i => exact absurd ((hidle i).symm.trans hx) (by simp)
      | run k =>
        have hab : s.impl.runs k ≠ .absent := by
          intro hab
          rw [Strand.State.holds, hab] at hx
          cases hx
        have hk := Finset.mem_range.1 (hi.spawned_of_run hab)
        have hf := hi.finished_of_released (h2 k hk)
        rw [Strand.State.holds, hf] at hx
        cases hx

/-- One task, which destroys the Strand; the `Run` that runs it deletes the object. -/
def destroyedByTask : List (Act (Fin 1) Nat) :=
  [Act.submit 0 5] ++ List.replicate 8 (Act.sub 0 false none) ++ List.replicate 10 (Act.run 0 false) ++ [Act.destroy] ++
    List.replicate 4 (Act.run 0 false)

theorem impl_deleted_by_run : ∃ s : State (Fin 1) Nat, Reach (system (Fin 1) Nat) anyStep s ∧ s.deletions = 1 ∧
    s.impl.executed = [5] ∧ ∀ a, step s a = none := by
  obtain ⟨s, r, hp⟩ := Reach.of_exec_any (system (Fin 1) Nat) destroyedByTask
    (fun s => decide (s.deletions = 1 ∧ s.impl.executed = [5])) rfl (by decide)
  obtain ⟨h1, h2⟩ := of_decide_eq_true hp
  exact ⟨s, r, h1, h2, (impl_deleted_once r).1 (by omega)⟩

end results

end Strand.Lifetime
