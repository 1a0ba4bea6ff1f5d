import ConcurrencyCourse.Lib.Serial
import ConcurrencyCourse.Mutex.SpinLock
import ConcurrencyCourse.Mutex.Starvation
import ConcurrencyCourse.Mutex.TrickyLock
import ConcurrencyCourse.Stdlike.Mutex

/-!
# `Mutexed` (tasks/mutex/mutexed/mutexed.hpp) and `LockGuard` (tasks/mutex/lock_guard/lock_guard.hpp)

| here | there |
| --- | --- |
| `M` | `Mutex`, a template parameter: any lock that excludes (`Exclusion`) |
| `.mutex` | its steps: `Acquire` (50-52), whose `Accessor` has a `lock_guard`, calls `Lock`, and the destructor calls `Unlock` |
| `.access` | `operator->` and `operator*` (27-41): any access to `object_` by the thread that has the `Accessor` |

`entered`, `number` and `log` are histories: each thread numbers its critical section when it begins.

`serializes`: whatever the threads do, the object is what their critical sections make of it, one after the other and
each of them undivided. The locks of this directory exclude (`TicketLock.exclusion`, …).
-/

namespace Stdlike.Mutex

open Function

def Act.thread {ι : Type} : Act ι → ι
  | .call i | .step i _ | .spurious i => i

variable {ι : Type} [DecidableEq ι] {s s' : State ι} {i j : ι}

/-- A thread that is woken was not in its critical section, and is not yet. -/
theorem critical_setPc {p : Pc} (hold : s.pc i ≠ .critical) (hnew : p ≠ .critical) :
    (s.setPc i p).pc j = .critical ↔ s.pc j = .critical := by
  rcases eq_or_ne j i with rfl | hne
  · exact iff_of_false ((update_self ..).trans_ne hnew) hold
  · rw [setPc_of_ne hne]

theorem critical_of_ne [Fintype ι] {a : Act ι} (hs : step s a = some s') (hj : j ≠ a.thread) :
    s'.pc j = .critical ↔ s.pc j = .critical := by
  cases a with
  | call i =>
    have hj : j ≠ i := hj
    simp only [step] at hs
    split at hs
    · rw [← Option.some.inj hs, setPc_of_ne hj]
    · rw [← Option.some.inj hs, setPc_of_ne hj]
    · cases hs
  | spurious i =>
    have hj : j ≠ i := hj
    simp only [step] at hs
    split at hs
    · rw [← Option.some.inj hs, setPc_of_ne hj]
    · cases hs
  | step i sleeper =>
    have hj : j ≠ i := hj
    have hcmpxchg : ∀ old new, (s.cmpxchg old new).pc = s.pc := by
      intro old new
      rw [State.cmpxchg]
      split <;> rfl
    simp only [step, State.next] at hs
    split at hs
    · cases hs
    · cases hs
    · cases hs
    · rw [← Option.some.inj hs, setPc_of_ne hj, hcmpxchg]
    · rw [← Option.some.inj hs, setPc_of_ne hj, hcmpxchg]
    · rw [← Option.some.inj hs, setPc_of_ne hj]
    · rw [← Option.some.inj hs, setPc_of_ne hj, hcmpxchg]
    · rw [← Option.some.inj hs, setPc_of_ne hj]
      rfl
    · rw [← Option.some.inj hs, setPc_of_ne hj]
    · obtain ⟨s₁, hwake, rfl⟩ := Option.map_eq_some_iff.1 hs
      rw [setPc_of_ne hj]
      cases sleeper with
      | none =>
        simp only [State.wake] at hwake
        split at hwake
        · rw [← Option.some.inj hwake]
        · cases hwake
      | some k =>
        simp only [State.wake] at hwake
        split at hwake
        · next hparked =>
          rw [← Option.some.inj hwake]
          exact critical_setPc (by rw [hparked]; rintro ⟨⟩) (by rintro ⟨⟩)
        · cases hwake

end Stdlike.Mutex

namespace Mutex.Mutexed

open Transition Function Serial

/-- An access to the object: in which critical section, by which thread, and what it does. -/
structure Access (ι T : Type) where
  number : Nat
  thread : ι
  effect : T → T

structure State (σ ι T : Type) where
  mutex : σ
  object : T
  /-- How many critical sections have begun. -/
  entered : Nat
  /-- The last one of each thread. -/
  number : ι → Nat
  /-- Oldest first. -/
  log : List (Access ι T)

inductive Act (α ι T : Type) where
  | mutex (a : α)
  | access (i : ι) (f : T → T)

variable {σ α ι T : Type} [DecidableEq ι] {M : System σ α}

/-- The mutex has gone on to `m`; thread `i` may have entered. -/
def State.setMutex (E : Exclusion M ι) (s : State σ ι T) (i : ι) (m : σ) : State σ ι T :=
  if E.inside m i && !E.inside s.mutex i then
    { s with mutex := m, entered := s.entered + 1, number := update s.number i s.entered }
  else { s with mutex := m }

def State.access (s : State σ ι T) (i : ι) (f : T → T) : State σ ι T :=
  { s with object := f s.object, log := s.log ++ [⟨s.number i, i, f⟩] }

def step (E : Exclusion M ι) (s : State σ ι T) : Act α ι T → Option (State σ ι T)
  | .mutex a => (M.step s.mutex a).map (s.setMutex E (E.thread a))
  | .access i f => if E.inside s.mutex i then some (s.access i f) else none

def system (E : Exclusion M ι) (x : T) : System (State σ ι T) (Act α ι T) :=
  ⟨fun s => M.init s.mutex ∧ s = ⟨s.mutex, x, 0, fun _ => 0, []⟩, step E⟩

/-! ### The invariant -/

/-- What the accesses have done to the object. -/
def run (x : T) (log : List (Access ι T)) : T := log.foldl (fun x a => a.effect x) x

structure Inv (E : Exclusion M ι) (x : T) (s : State σ ι T) : Prop where
  mutex : Reach M anyStep s.mutex
  /-- Who is inside is in the last critical section that has begun. -/
  last : ∀ i, E.inside s.mutex i = true → s.number i + 1 = s.entered
  lt : ∀ a ∈ s.log, a.number < s.entered
  own : ∀ i, E.inside s.mutex i = true → ∀ a ∈ s.log, a.number = s.number i → a.thread = i
  order : s.log.Pairwise fun a b => a.number ≤ b.number
  one : ∀ a ∈ s.log, ∀ b ∈ s.log, a.number = b.number → a.thread = b.thread
  object : s.object = run x s.log

section steps

variable {E : Exclusion M ι} {x : T} {s s' : State σ ι T} {i : ι}

omit [DecidableEq ι] in
theorem inv_init (h : M.init s.mutex) (hs : s = ⟨s.mutex, x, 0, fun _ => 0, []⟩) : Inv E x s := by
  generalize s.mutex = m at h hs
  subst hs
  have hout : ∀ {p : Prop} i, E.inside m i = true → p := by
    intro p i hi
    rw [E.outside m h i] at hi
    cases hi
  exact ⟨.init h, fun i => hout i, nofun, fun i => hout i, .nil, nofun, rfl⟩

/-- The mutex goes on. -/
theorem Inv.setMutex (h : Inv E x s) {a : α} {m : σ} (hs : M.step s.mutex a = some m) :
    Inv E x (s.setMutex E (E.thread a) m) := by
  have hm : Reach M anyStep m := h.mutex.step trivial hs
  -- the others are inside as before
  have hothers : ∀ j, j ≠ E.thread a → E.inside m j = true → E.inside s.mutex j = true := by
    intro j hj hin
    rwa [← E.own _ _ _ hs j hj]
  unfold State.setMutex
  split
  · next hc =>
    obtain ⟨hin, -⟩ := (Bool.and_eq_true _ _).mp hc
    have hself : ∀ j, E.inside m j = true → j = E.thread a := fun j hj => E.exclusive m hm j _ hj hin
    refine ⟨hm, fun j hj => ?_, fun b hb => Nat.lt_succ_of_lt (h.lt b hb), fun j hj b hb hn => ?_, h.order, h.one,
      h.object⟩
    · obtain rfl := hself j hj
      exact congrArg (· + 1) (update_self ..)
    · obtain rfl := hself j hj
      have hlt := h.lt b hb
      have hn : b.number = s.entered := hn.trans (update_self ..)
      exact absurd hn (Nat.ne_of_lt hlt)
  · next hc =>
    have hwas : ∀ j, E.inside m j = true → E.inside s.mutex j = true := by
      intro j hj
      by_cases hja : j = E.thread a
      · subst hja
        by_contra hout
        exact hc (by rw [hj, Bool.eq_false_of_not_eq_true hout]; rfl)
      · exact hothers j hja hj
    exact ⟨hm, fun j hj => h.last j (hwas j hj), h.lt, fun j hj => h.own j (hwas j hj), h.order, h.one, h.object⟩

omit [DecidableEq ι] in
/-- A thread that is inside accesses the object. -/
theorem Inv.access (h : Inv E x s) {f : T → T} (hin : E.inside s.mutex i = true) : Inv E x (s.access i f) := by
  have hlast := h.last i hin
  have hmem : ∀ {b : Access ι T}, b ∈ s.log ++ [⟨s.number i, i, f⟩] → b ∈ s.log ∨ b = ⟨s.number i, i, f⟩ := by
    intro b hb
    rcases List.mem_append.1 hb with hb | hb
    · exact .inl hb
    · exact .inr (List.mem_singleton.1 hb)
  refine ⟨h.mutex, h.last, fun b hb => ?_, fun j hj b hb hn => ?_, ?_, fun b hb c hc hn => ?_, ?_⟩
  · rcases hmem hb with hb | rfl
    · exact h.lt b hb
    · exact Nat.lt_of_succ_le hlast.le
  · rcases hmem hb with hb | rfl
    · exact h.own j hj b hb hn
    · exact E.exclusive _ h.mutex i j hin hj
  · refine List.pairwise_append.2 ⟨h.order, List.pairwise_singleton .., fun b hb c hc => ?_⟩
    obtain rfl := List.mem_singleton.1 hc
    have hlt := h.lt b hb
    exact Nat.le_of_lt_succ (hlt.trans_eq hlast.symm)
  · rcases hmem hb with hb | rfl <;> rcases hmem hc with hc | rfl
    · exact h.one b hb c hc hn
    · exact h.own i hin b hb hn
    · exact (h.own i hin c hc hn.symm).symm
    · rfl
  · change f s.object = run x (s.log ++ [⟨s.number i, i, f⟩])
    rw [run, List.foldl_append, List.foldl_cons, List.foldl_nil, h.object]
    rfl

theorem Inv.step (h : Inv E x s) {a : Act α ι T} (hs : step E s a = some s') : Inv E x s' := by
  cases a with
  | mutex a =>
    obtain ⟨m, hm, rfl⟩ := Option.map_eq_some_iff.1 hs
    exact h.setMutex hm
  | access i f =>
    simp only [Mutexed.step] at hs
    split at hs
    · next hin =>
      obtain rfl := Option.some.inj hs
      exact h.access hin
    · cases hs

theorem reach_inv (r : Reach (system E x) anyStep s) : Inv E x s := by
  refine r.invariant (I := Inv E x) (fun s hs => ?_) fun _ _ _ h _ hs => h.step hs
  obtain ⟨hm, hs⟩ := hs
  exact inv_init hm hs

end steps

/-! ### Every run -/

/-- The accesses of a critical section. -/
def State.accesses (s : State σ ι T) (k : Nat) : List (Access ι T) := s.log.filter (·.number = k)

/-- No two critical sections overlap, each has one thread, the object is what they make of it one after the other, and
since somebody entered nobody else has accessed it. -/
structure Serial (E : Exclusion M ι) (x : T) (s : State σ ι T) : Prop where
  order : s.log.Pairwise fun a b => a.number ≤ b.number
  thread : ∀ k, ∀ a ∈ s.accesses k, ∀ b ∈ s.accesses k, a.thread = b.thread
  object : s.object = (List.range s.entered).foldl (fun x k => run x (s.accesses k)) x
  own : ∀ i, E.inside s.mutex i = true → ∀ a ∈ s.log, a.thread ≠ i → a.number < s.number i

theorem serializes (E : Exclusion M ι) (x : T) {s : State σ ι T} (r : Reach (system E x) anyStep s) : Serial E x s := by
  have h := reach_inv r
  refine ⟨h.order, fun k a ha b hb => ?_, ?_, fun i hi a ha hne => ?_⟩
  · obtain ⟨ha, hak⟩ := List.mem_filter.1 ha
    obtain ⟨hb, hbk⟩ := List.mem_filter.1 hb
    exact h.one a ha b hb ((of_decide_eq_true hak).trans (of_decide_eq_true hbk).symm)
  · rw [h.object]
    exact foldl_sections h.order h.lt x
  · have hlt := h.lt a ha
    rw [← h.last i hi] at hlt
    exact Nat.lt_of_le_of_ne (Nat.le_of_lt_succ hlt) fun hn => hne (h.own i hi a ha hn)

/-! ### The locks -/

section locks

/-- In the critical section, after `Lock` and before `Unlock`. -/
def ticketHolds : TicketLock.Pc → Bool
  | .holding _ => true
  | _ => false

def queueHolds {A : Type} : QueueSpinLock.Pc A → Bool
  | .queued _ _ .critical => true
  | _ => false

/-- `TASSpinLock` and `SpinLock`. -/
def spinLock : Exclusion (SpinLock.system ι) ι where
  thread := SpinLock.Act.thread
  inside s i := decide (s.pc i = .holding)
  outside s hs i := by
    rw [show s = SpinLock.init from hs]
    rfl
  own s a s' hs j hj := by rw [SpinLock.pc_of_ne hs hj]
  exclusive s r i j hi hj := by
    refine (SpinLock.reach_inv r).guards.unique i j ?_ ?_
    · rw [of_decide_eq_true hi]
      rfl
    · rw [of_decide_eq_true hj]
      rfl

/-- `TicketLock` -/
def ticketLock : Exclusion (TicketLock.system ι) ι where
  thread := TicketLock.Act.thread
  inside s i := ticketHolds (s.pc i)
  outside s hs i := by
    rw [show s = TicketLock.init from hs]
    rfl
  own s a s' hs j hj := by rw [TicketLock.pc_of_ne hs hj]
  exclusive s r i j hi hj := by
    have hinside : ∀ p, ticketHolds p = true → p.inside = true := by
      intro p hp
      cases p <;> first | rfl | cases hp
    obtain ⟨h, hinv⟩ := TicketLock.reach_inv r
    exact hinv.exclusive (hinside _ hi) (hinside _ hj)

/-- `QueueSpinLock` -/
def queueSpinLock {A : Type} [DecidableEq A] : Exclusion (QueueSpinLock.system A ι) ι where
  thread := QueueSpinLock.Act.thread
  inside s i := queueHolds (s.pc i)
  outside s hs i := by
    rw [show s = QueueSpinLock.init from hs]
    rfl
  own s a s' hs j hj := by rw [QueueSpinLock.pc_of_ne hs hj]
  exclusive s r i j hi hj := by
    have hqueued : ∀ p : QueueSpinLock.Pc A, queueHolds p = true → ∃ g n, p = .queued g n .critical := by
      intro p hp
      cases p with
      | queued g n p =>
        cases p with
        | critical => exact ⟨g, n, rfl⟩
        | _ => cases hp
      | _ => cases hp
    obtain ⟨g, n, hi⟩ := hqueued _ hi
    obtain ⟨g', n', hj⟩ := hqueued _ hj
    exact (QueueSpinLock.reach_inv r).holds_unique hi rfl hj rfl

/-- `TrickyLock`, when not more threads than `thread_count_` has values use it. -/
def trickyLock [Fintype ι] {size : Nat} (hsize : 0 < size) (hcard : Fintype.card ι ≤ size) :
    Exclusion (TrickyLock.system ι size) ι where
  thread := TrickyLock.Act.thread
  inside s i := decide (s.pc i = .critical)
  outside s hs i := by
    rw [show s = TrickyLock.init from hs]
    rfl
  own s a s' hs j hj := by rw [TrickyLock.pc_of_ne hs hj]
  exclusive s r i j hi hj := by
    refine TrickyLock.exclusive_of_reach hsize hcard r i j ?_ ?_
    · rw [of_decide_eq_true hi]
      rfl
    · rw [of_decide_eq_true hj]
      rfl

/-- The `Mutex` on a futex. -/
def mutex [Fintype ι] : Exclusion (Stdlike.Mutex.system ι) ι where
  thread := Stdlike.Mutex.Act.thread
  inside s i := decide (s.pc i = .critical)
  outside s hs i := by
    rw [show s = Stdlike.Mutex.init from hs]
    rfl
  own s a s' hs j hj := decide_eq_decide.2 (Stdlike.Mutex.critical_of_ne hs hj)
  exclusive s r i j hi hj := by
    refine (Stdlike.Mutex.inv_of_reach r).unique i j ?_ ?_
    · rw [of_decide_eq_true hi]
      rfl
    · rw [of_decide_eq_true hj]
      rfl

end locks

/-- Two threads double and increment; the second one has drawn its ticket before the first one accesses the object. -/
def doubleAndAdd : List (Act (TicketLock.Act (Fin 2)) (Fin 2) Nat) :=
  [.mutex (.lock 0), .mutex (.step 0), .mutex (.lock 1), .mutex (.step 1), .mutex (.step 0), .access 0 (· + 3),
    .mutex (.step 1), .access 0 (2 * ·), .mutex (.unlock 0), .mutex (.step 0), .mutex (.step 1), .access 1 (· + 1)]

theorem serializes_two : ∃ s : State (TicketLock.State (Fin 2)) (Fin 2) Nat,
    (s.object = 17 ∧ s.log.map (·.number) = [0, 0, 1]) ∧ Serial ticketLock 5 s := by
  obtain ⟨s, hr, hp⟩ := Reach.of_exec_any (system (ticketLock (ι := Fin 2)) 5) doubleAndAdd
    (fun s => decide (s.object = 17 ∧ s.log.map (·.number) = [0, 0, 1]))
    (s := ⟨TicketLock.init, 5, 0, fun _ => 0, []⟩) ⟨rfl, rfl⟩ (by decide)
  exact ⟨s, of_decide_eq_true hp, serializes ticketLock 5 hr⟩

end Mutex.Mutexed
