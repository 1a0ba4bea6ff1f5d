import ConcurrencyCourse.Fibers.Linearity

/-!
# How deep `Fiber::Run` nests (tasks/fibers/mutex/exe/fibers/core/fiber.cpp 37-54)

A worker calls `Run` from the pool. `LockAwaiter` and `UnlockAwaiter` call `Run` again from inside
`AwaitSuspend` (sync/mutex.hpp 59, 90, 101), on the worker's own stack; the other awaiters call `Schedule`.
No `Run` returns before the innermost one does, and then all of them return: nothing is left to do in the
outer ones.

| here | there |
| --- | --- |
| `Deep.depth` | activations of `Fiber::Run` on the stack of a worker |
| `Deep.calls` | `Lock` and `Unlock` calls that the fibers on this worker have made since it left the pool's loop |
-/

namespace Fibers.Fiber

open Function Transition Places

variable {φ ω μ ε : Type}

structure Deep (φ ω μ ε : Type) where
  base : State φ ω μ ε
  depth : ω → Nat
  calls : ω → Nat

/-- `Run` is called when a worker gets to its beginning; an idle worker has returned from all of them. -/
def depthAfter : Pc φ μ ε → Pc φ μ ε → Nat → Nat
  -- the step of another worker
  | .run _, .run _, d => d
  | _, .run _, d => d + 1
  | _, .idle, _ => 0
  | _, _, d => d

def Awaiter.isMutex : Awaiter μ ε → Bool
  | .lock _ | .unlock _ => true
  | _ => false

/-- The routine has suspended in `Lock` or `Unlock`. -/
def inMutexCall (s : State φ ω μ ε) (f : φ) : Bool :=
  match s.coro f, s.awaiter f with
  | .suspended, some a => a.isMutex
  | _, _ => false

def callsAfter (s : State φ ω μ ε) : Pc φ μ ε → Pc φ μ ε → Nat → Nat
  | .routine _, .resumed f, c => if inMutexCall s f then c + 1 else c
  | _, .idle, _ => 0
  | _, _, c => c

variable [DecidableEq φ] [DecidableEq ω] [DecidableEq μ] [DecidableEq ε]

def deepStep (t : Deep φ ω μ ε) (a : Act φ ω μ ε) : Option (Deep φ ω μ ε) :=
  (step t.base a).map fun s =>
    { base := s
      depth := fun w => depthAfter (t.base.worker w) (s.worker w) (t.depth w)
      calls := fun w => callsAfter s (t.base.worker w) (s.worker w) (t.calls w) }

def deepInit : Deep φ ω μ ε := { base := init, depth := fun _ => 0, calls := fun _ => 0 }

variable (φ ω μ ε) in
def deepSystem : System (Deep φ ω μ ε) (Act φ ω μ ε) := ⟨fun t => t = deepInit, deepStep⟩

/-! ### One activation more for each call -/

/-- `d` activations and `c` calls, for a worker at this place. -/
def NestOk (s : State φ ω μ ε) (d c : Nat) : Pc φ μ ε → Prop
  | .idle => d = 0 ∧ c = 0
  | .lock _ _ _ | .unlock _ _ _ => d = c
  | .resumed f => d + (inMutexCall s f).toNat = c + 1
  | _ => d = c + 1

structure Nested (t : Deep φ ω μ ε) : Prop where
  spins : Spins t.base
  placed : Placed t.base
  nest : ∀ w, NestOk t.base (t.depth w) (t.calls w) (t.base.worker w)

section nested

variable {s s' : State φ ω μ ε} {t : Deep φ ω μ ε} {w v : ω} {f : φ} {p p' : Pc φ μ ε} {d c : Nat}

omit [DecidableEq φ] [DecidableEq ω] [DecidableEq μ] [DecidableEq ε] in
/-- What `step` may do to the fiber of a worker that does not move. -/
theorem NestOk.other (h : NestOk s d c p) (hf : ∀ f, p.own = some f → inMutexCall s' f = inMutexCall s f) :
    NestOk s' (depthAfter p p d) (callsAfter s' p p c) p := by
  cases p with
  | idle => exact ⟨rfl, rfl⟩
  | resumed f =>
    change d + (inMutexCall s' f).toNat = c + 1
    rw [hf f rfl]
    exact h
  | _ => exact h

/-- The worker moves from `p` to `p'`. -/
def Nests (s s' : State φ ω μ ε) (p p' : Pc φ μ ε) : Prop :=
  ∀ d c, NestOk s d c p → NestOk s' (depthAfter p p' d) (callsAfter s' p p' c) p'

omit [DecidableEq φ] [DecidableEq ω] [DecidableEq μ] [DecidableEq ε] in
theorem Move.nests (h : Move s p p') : Nests s s' p p' := by
  intro d c hn
  cases h <;> exact hn

omit [DecidableEq φ] [DecidableEq ω] [DecidableEq μ] [DecidableEq ε] in
theorem StoresSt.nests {m : μ} (h : StoresSt m p p') : Nests s s' p p' := by
  intro d c hn
  cases h <;> exact hn

omit [DecidableEq φ] [DecidableEq ω] [DecidableEq μ] [DecidableEq ε] in
theorem LocksMtx.nests {m : μ} (h : LocksMtx m p p') : Nests s s' p p' := by
  intro d c hn
  cases h <;> exact hn

omit [DecidableEq φ] [DecidableEq ω] [DecidableEq μ] [DecidableEq ε] in
theorem UnlocksMtx.nests {m : μ} (h : UnlocksMtx m p p') : Nests s s' p p' := by
  intro d c hn
  cases h with
  | parked => exact ⟨rfl, rfl⟩
  | _ => exact hn

omit [DecidableEq φ] [DecidableEq ω] [DecidableEq μ] [DecidableEq ε] in
theorem Locks.nests {e : ε} (h : Locks e p p') : Nests s s' p p' := by
  intro d c hn
  cases h <;> exact hn

omit [DecidableEq φ] [DecidableEq ω] [DecidableEq μ] [DecidableEq ε] in
theorem nests_fireLoop {e : ε} {pc : FirePc φ} {b : Bool} : Nests s s' (.fire f e pc) (fireLoop f e b) := by
  intro d c hn
  cases b <;> exact hn

omit [DecidableEq φ] [DecidableEq ω] [DecidableEq μ] [DecidableEq ε] in
theorem Unlocks.nests {e : ε} (h : Unlocks e p p') : Nests s s' p p' := by
  intro d c hn
  cases h with
  | parked => exact ⟨rfl, rfl⟩
  | fired => exact hn
  | fire => exact nests_fireLoop d c hn

omit [DecidableEq φ] [DecidableEq ω] [DecidableEq μ] [DecidableEq ε] in
theorem Submits.nests {x : φ} {k : Hand} (h : Submits x k p p') : Nests s s' p p' := by
  intro d c hn
  cases h with
  | own => exact ⟨rfl, rfl⟩
  | unlock => exact hn
  | fire => exact nests_fireLoop d c hn

omit [DecidableEq φ] [DecidableEq ω] [DecidableEq μ] [DecidableEq ε] in
/-- The one place where the stack gets deeper than for a task of the pool. -/
theorem RunsOwn.nests (h : RunsOwn f p) : Nests s s' p (.run f) := by
  intro d c hn
  cases h <;> exact congrArg (· + 1) hn

/-- The counts fit the places after a step to `s'`. -/
def NestsAll (t : Deep φ ω μ ε) (s' : State φ ω μ ε) : Prop :=
  ∀ v, NestOk s' (depthAfter (t.base.worker v) (s'.worker v) (t.depth v))
    (callsAfter s' (t.base.worker v) (s'.worker v) (t.calls v)) (s'.worker v)

omit [DecidableEq φ] [DecidableEq μ] [DecidableEq ε] in
/-- The worker `w` moves, and does to no fiber but its own. -/
theorem nest_step (hn : ∀ w, NestOk t.base (t.depth w) (t.calls w) (t.base.worker w))
    (hw : s'.worker = update t.base.worker w p') (hown : Nests t.base s' (t.base.worker w) p')
    (hother : ∀ v f, v ≠ w → (t.base.worker v).own = some f → inMutexCall s' f = inMutexCall t.base f) :
    NestsAll t s' := by
  intro v
  rw [hw]
  rcases eq_or_ne v w with rfl | hv
  · rw [update_self]
    exact hown _ _ (hn v)
  · rw [update_of_ne hv]
    exact (hn v).other fun f hf => hother v f hv hf

omit [DecidableEq φ] [DecidableEq ω] [DecidableEq μ] [DecidableEq ε] in
theorem inMutexCall_same (h1 : s'.coro f = s.coro f) (h2 : s'.awaiter f = s.awaiter f) :
    inMutexCall s' f = inMutexCall s f := by
  unfold inMutexCall
  rw [h1, h2]

omit [DecidableEq φ] [DecidableEq μ] [DecidableEq ε] in
/-- A step of a worker on the fiber it executes. -/
theorem Nested.execute (hi : Nested t) (hin : (t.base.worker w).hand .executes = some f)
    (honly : OnlyFiber t.base s' f) (hw : s'.worker = update t.base.worker w p')
    (hown : Nests t.base s' (t.base.worker w) p') : NestsAll t s' := by
  refine nest_step hi.nest hw hown fun v g hv hg => ?_
  have hgf : g ≠ f := fun h => hi.placed.alone hi.spins hin hv (h ▸ hg)
  exact inMutexCall_same (honly.coro g hgf) (honly.awaiter g hgf)

omit [DecidableEq φ] [DecidableEq ω] [DecidableEq μ] [DecidableEq ε] in
/-- `Suspend`, or the end of the routine. -/
theorem nests_resumed : Nests s s' (.routine f) (.resumed f) := by
  intro d c (hn : d = c + 1)
  change d + (inMutexCall s' f).toNat = (if inMutexCall s' f then c + 1 else c) + 1
  cases inMutexCall s' f
  · exact hn
  · exact congrArg (· + 1) hn

omit [DecidableEq φ] [DecidableEq ω] [DecidableEq μ] [DecidableEq ε] in
theorem nests_await {a : Awaiter μ ε} (hc : s.coro f = .suspended) (ha : s.awaiter f = some a) :
    Nests s s' (.resumed f) (awaitSuspend f a) := by
  intro d c (hn : d + (inMutexCall s f).toNat = c + 1)
  have hcall : inMutexCall s f = a.isMutex := by
    unfold inMutexCall
    rw [hc, ha]
  rw [hcall] at hn
  cases a with
  | lock m => exact Nat.succ.inj hn
  | unlock m => exact Nat.succ.inj hn
  | _ => exact hn

theorem Nested.effect (hi : Nested t) (he : Effect t.base s') : NestsAll t s' := by
  cases he with
  | @go f unborn =>
    refine fun v => (hi.nest v).other fun g hg => ?_
    have hgf : g ≠ f := by
      rintro rfl
      obtain ⟨r, hr, -⟩ := own_isAt hi.spins hg
      exact ((hi.placed.live g).2 ⟨r, hr⟩).1 unborn
    exact inMutexCall_same (update_of_ne hgf ..) rfl
  | take at_ tasks =>
    refine nest_step hi.nest rfl (at_ ▸ fun d c hn => ?_) fun _ _ _ _ => rfl
    exact congrArg (· + 1) (hn.1.trans hn.2.symm)
  | suspend at_ =>
    exact hi.execute (by rw [at_]; rfl)
      ⟨fun g hg => update_of_ne hg .., fun g hg => update_of_ne hg .., fun g hg => update_of_ne hg ..⟩ rfl
      (at_ ▸ nests_resumed)
  | callFire at_ first => exact nest_step hi.nest rfl (at_ ▸ fun _ _ hn => hn) fun _ _ _ _ => rfl
  | complete at_ =>
    exact hi.execute (by rw [at_]; rfl) ⟨fun g hg => update_of_ne hg .., fun _ _ => rfl, fun _ _ => rfl⟩ rfl
      (at_ ▸ nests_resumed)
  | resume at_ =>
    exact hi.execute (by rw [at_]; rfl)
      ⟨fun g hg => update_of_ne hg .., fun _ _ => rfl, fun g hg => update_of_ne hg ..⟩ rfl
      (at_ ▸ fun _ _ hn => hn)
  | delete at_ completed =>
    exact nest_step hi.nest rfl (at_ ▸ fun _ _ _ => ⟨rfl, rfl⟩) fun _ _ _ _ => rfl
  | @await w f a at_ running awaiter =>
    have hsusp := (at_ ▸ hi.placed.fiber w : FiberOk t.base (.resumed f)).resolve_left running
    exact hi.execute (by rw [at_]; rfl) ⟨fun _ _ => rfl, fun g hg => update_of_ne hg .., fun _ _ => rfl⟩ rfl
      (at_ ▸ nests_await hsusp.1 awaiter)
  | move at_ next => exact nest_step hi.nest rfl (at_ ▸ next.nests) fun _ _ _ _ => rfl
  | storeSt at_ next => exact nest_step hi.nest rfl (at_ ▸ next.nests) fun _ _ _ _ => rfl
  | lockMtx at_ next free => exact nest_step hi.nest rfl (at_ ▸ next.nests) fun _ _ _ _ => rfl
  | unlockMtx at_ next => exact nest_step hi.nest rfl (at_ ▸ next.nests) fun _ _ _ _ => rfl
  | lock at_ next free => exact nest_step hi.nest rfl (at_ ▸ next.nests) fun _ _ _ _ => rfl
  | unlock at_ next => exact nest_step hi.nest rfl (at_ ▸ next.nests) fun _ _ _ _ => rfl
  | casRun at_ own => exact nest_step hi.nest rfl (at_ ▸ own.nests) fun _ _ _ _ => rfl
  | run at_ own => exact nest_step hi.nest rfl (at_ ▸ own.nests) fun _ _ _ _ => rfl
  | submit at_ next => exact nest_step hi.nest rfl (at_ ▸ next.nests) fun _ _ _ _ => rfl
  | storeFired at_ => exact nest_step hi.nest rfl (at_ ▸ fun _ _ hn => hn) fun _ _ _ _ => rfl
  | park at_ => exact nest_step hi.nest rfl (at_ ▸ fun _ _ hn => hn) fun _ _ _ _ => rfl
  | unpark at_ parkQ => exact nest_step hi.nest rfl (at_ ▸ fun _ _ hn => hn) fun _ _ _ _ => rfl
  | enqueue at_ => exact nest_step hi.nest rfl (at_ ▸ fun _ _ hn => hn) fun _ _ _ _ => rfl
  | dequeue at_ waitQ => exact nest_step hi.nest rfl (at_ ▸ fun _ _ hn => hn) fun _ _ _ _ => rfl

end nested

theorem nested {t : Deep φ ω μ ε} (r : Reach (deepSystem φ ω μ ε) anyStep t) : Nested t := by
  refine r.invariant ?_ ?_
  · rintro t rfl
    exact ⟨spins_init, placed_init, fun _ => ⟨rfl, rfl⟩⟩
  · intro t a t' hi _ hstep
    obtain ⟨s', hs, rfl⟩ := Option.map_eq_some_iff.1 hstep
    have he := step_effect hs
    exact ⟨hi.spins.effect he, hi.placed.effect hi.spins he, hi.effect he⟩

omit [DecidableEq φ] [DecidableEq ω] [DecidableEq μ] [DecidableEq ε] in
/-- There are as many activations as calls, or one more. -/
theorem Nested.depth_le {t : Deep φ ω μ ε} (hi : Nested t) (w : ω) :
    t.depth w ≤ t.calls w + 1 ∧ t.calls w ≤ t.depth w := by
  have hn := hi.nest w
  generalize t.base.worker w = p at hn
  cases p with
  | idle =>
    obtain ⟨h1, h2⟩ := (hn : t.depth w = 0 ∧ t.calls w = 0)
    omega
  | resumed f =>
    have hb := Bool.toNat_le (inMutexCall t.base f)
    have h : t.depth w + (inMutexCall t.base f).toNat = t.calls w + 1 := hn
    omega
  | lock f m pc =>
    have h : t.depth w = t.calls w := hn
    omega
  | unlock f m pc =>
    have h : t.depth w = t.calls w := hn
    omega
  | _ =>
    have h : t.depth w = t.calls w + 1 := hn
    omega

/-! ### When the stack is bounded -/

/-- The runs `P` of some programs, with any fibers, workers, mutexes and events: how deep `Run` nests is
bounded exactly when it is bounded how often the fibers of one worker call `Lock` and `Unlock` before the
worker gets back to the pool. -/
theorem nesting_bounded_iff (P : History (Deep φ ω μ ε) (Act φ ω μ ε) → Deep φ ω μ ε → Prop) :
    (∃ K, ∀ h t, Run (deepSystem φ ω μ ε) anyStep h t → P h t → ∀ w, t.depth w ≤ K) ↔
      ∃ B, ∀ h t, Run (deepSystem φ ω μ ε) anyStep h t → P h t → ∀ w, t.calls w ≤ B := by
  constructor
  · rintro ⟨K, hK⟩
    refine ⟨K, fun h t r hP w => ?_⟩
    exact Nat.le_trans (Nested.depth_le (nested ⟨h, r⟩) w).2 (hK h t r hP w)
  · rintro ⟨B, hB⟩
    refine ⟨B + 1, fun h t r hP w => ?_⟩
    exact Nat.le_trans (Nested.depth_le (nested ⟨h, r⟩) w).1 (Nat.succ_le_succ (hB h t r hP w))

/-- A fiber in its routine, in a pool of one worker, with nobody in the mutex. -/
def looping (d c : Nat) : Deep Unit Unit Unit Unit :=
  { base := { (init : State Unit Unit Unit Unit) with
      worker := fun _ => .routine (), coro := fun _ => .running }
    depth := fun _ => d
    calls := fun _ => c }

def lockUnlock : List (Act Unit Unit Unit Unit) :=
  [.lock () (), .step (), .step (), .step (), .unlock () (), .step (), .step (), .step ()]

theorem looping_step (d c : Nat) :
    exec (deepSystem Unit Unit Unit Unit) noCheck (looping d c) lockUnlock = some (looping (d + 2) (c + 2)) := by
  rfl

/-- A fiber that locks and unlocks a free mutex over and over gets the worker's stack as deep as one likes. -/
theorem nesting_unbounded : ¬ ∃ K, ∀ t : Deep Unit Unit Unit Unit,
    Reach (deepSystem Unit Unit Unit Unit) anyStep t → ∀ w, t.depth w ≤ K := by
  rintro ⟨K, hK⟩
  have hstart : exec (deepSystem Unit Unit Unit Unit) noCheck deepInit [.go (), .take (), .step ()] =
      some (looping 1 0) := rfl
  have hreach : ∀ n, Reach (deepSystem Unit Unit Unit Unit) anyStep (looping (1 + 2 * n) (2 * n)) := by
    intro n
    induction n with
    | zero => exact (Reach.init rfl).exec (fun _ _ _ => trivial) hstart
    | succ n ih => exact ih.exec (fun _ _ _ => trivial) (looping_step (1 + 2 * n) (2 * n))
  have hdeep : 1 + 2 * K ≤ K := hK _ (hreach K) ()
  omega

end Fibers.Fiber
