import ConcurrencyCourse.Lib.Fairness
import ConcurrencyCourse.Mutex.QueueSpinLock
import ConcurrencyCourse.Mutex.TicketLock

/-!
# `TicketLock` and `QueueSpinLock` starve nobody (tasks/mutex/try-lock/ticket_lock.hpp, tasks/mutex/queue/queue_spinlock.hpp)

The runs are infinite and fair to each thread: when it can go on with a call or leave its critical section at any time
from some moment on, it does so. Nothing is said about how often a thread calls `Lock`, `TryLock` or the constructor
of a `Guard`.

Who waits is helped by the one that has the lock or is the next to get it. In `QueueSpinLock` that one may go round in
`Release`, until the `Guard` behind it has stored the pointer to itself: then this `Guard` helps.
-/

namespace Mutex

open Transition Function

namespace TicketLock

variable {ι : Type} [DecidableEq ι] {s s' : State ι} {a : Act ι} {i j : ι} {k n : Nat}

/-- Thread `i` goes on with its call, or leaves the critical section. -/
def goesOn (i : ι) (a : Act ι) : Prop := a = .step i ∨ a = .unlock i

def Act.thread : Act ι → ι
  | .lock i | .tryLock i | .unlock i | .step i => i

/-- The steps to the end of `Unlock`. -/
def Pc.left : Pc → Nat
  | .spin _ => 2
  | .holding _ => 1
  | _ => 0

theorem reach_inv (r : Reach (system ι) anyStep s) : ∃ h, Inv h s := by
  obtain ⟨h, r⟩ := r
  exact ⟨h, r.invariant (fun _ hs => hs ▸ Inv.init) fun _ _ _ _ hi _ hs => hi.step hs⟩

/-- The other threads stay where they are. -/
theorem pc_of_ne (hs : step s a = some s') (hj : j ≠ a.thread) : s'.pc j = s.pc j := by
  cases a with
  | lock i =>
    simp only [step] at hs
    split at hs
    · obtain rfl := Option.some.inj hs
      exact update_of_ne hj ..
    · cases hs
  | tryLock i =>
    simp only [step] at hs
    split at hs
    · obtain rfl := Option.some.inj hs
      exact update_of_ne hj ..
    · cases hs
  | unlock i =>
    simp only [step] at hs
    split at hs
    · obtain rfl := Option.some.inj hs
      exact update_of_ne hj ..
    · cases hs
  | step i =>
    simp only [step, threadStep] at hs
    split at hs
    · cases hs
    · cases hs
    · obtain rfl := Option.some.inj hs
      exact update_of_ne hj ..
    · obtain rfl := Option.some.inj hs
      split
      · exact update_of_ne hj ..
      · rfl
    · obtain rfl := Option.some.inj hs
      exact update_of_ne hj ..
    · obtain rfl := Option.some.inj hs
      split
      · exact update_of_ne hj ..
      · exact update_of_ne hj ..
    · obtain rfl := Option.some.inj hs
      exact update_of_ne hj ..
    · obtain rfl := Option.some.inj hs
      exact update_of_ne hj ..

/-- Only the end of an `Unlock` serves the next ticket. -/
theorem owner_eq (hs : step s a = some s') (hu : ∀ k, s.pc a.thread ≠ .unlock k) : s'.owner = s.owner := by
  cases a with
  | lock i =>
    simp only [step] at hs
    split at hs
    · obtain rfl := Option.some.inj hs
      rfl
    · cases hs
  | tryLock i =>
    simp only [step] at hs
    split at hs
    · obtain rfl := Option.some.inj hs
      rfl
    · cases hs
  | unlock i =>
    simp only [step] at hs
    split at hs
    · obtain rfl := Option.some.inj hs
      rfl
    · cases hs
  | step i =>
    simp only [step, threadStep] at hs
    split at hs
    · cases hs
    · cases hs
    · obtain rfl := Option.some.inj hs
      rfl
    · obtain rfl := Option.some.inj hs
      split <;> rfl
    · obtain rfl := Option.some.inj hs
      rfl
    · obtain rfl := Option.some.inj hs
      split <;> rfl
    · obtain rfl := Option.some.inj hs
      rfl
    · next k hpc => exact absurd hpc (hu k)

/-- The thread `j` whose ticket is served, seen from the one that waits with ticket `k`. -/
def Serves (k : Nat) (s : State ι) (j : ι) (n : Nat) : Prop :=
  (s.pc j).ticket = some s.owner ∧ n = 3 * (k - s.owner) + (s.pc j).left

/-- What the thread whose ticket is served does next. -/
theorem serve_cases (hserved : (s.pc j).ticket = some s.owner) (hs : step s a = some s') (ha : a.thread = j) :
    (s.pc j = .spin s.owner ∧ s'.pc j = .holding s.owner ∧ s'.owner = s.owner) ∨
    (s.pc j = .holding s.owner ∧ s'.pc j = .unlock s.owner ∧ s'.owner = s.owner) ∨
    (s.pc j = .unlock s.owner ∧ s'.owner = s.owner + 1 ∧ s'.nextFree = s.nextFree) := by
  subst ha
  cases hpc : s.pc a.thread with
  | spin k =>
    rw [hpc] at hserved
    obtain rfl := Option.some.inj hserved
    cases a with
    | step i =>
      have hpc : s.pc i = .spin s.owner := hpc
      simp only [step, threadStep, hpc, if_true, Option.some.injEq] at hs
      subst hs
      exact .inl ⟨rfl, update_self .., rfl⟩
    | _ i =>
      have hpc : s.pc i = .spin s.owner := hpc
      simp only [step, hpc] at hs
      cases hs
  | holding k =>
    rw [hpc] at hserved
    obtain rfl := Option.some.inj hserved
    cases a with
    | unlock i =>
      have hpc : s.pc i = .holding s.owner := hpc
      simp only [step, hpc, Option.some.injEq] at hs
      subst hs
      exact .inr (.inl ⟨rfl, update_self .., rfl⟩)
    | _ i =>
      have hpc : s.pc i = .holding s.owner := hpc
      simp only [step, threadStep, hpc] at hs
      cases hs
  | unlock k =>
    rw [hpc] at hserved
    obtain rfl := Option.some.inj hserved
    cases a with
    | step i =>
      have hpc : s.pc i = .unlock s.owner := hpc
      simp only [step, threadStep, hpc, Option.some.injEq] at hs
      subst hs
      exact .inr (.inr ⟨rfl, rfl, rfl⟩)
    | _ i =>
      have hpc : s.pc i = .unlock s.owner := hpc
      simp only [step, hpc] at hs
      cases hs
  | _ =>
    rw [hpc] at hserved
    cases hserved

theorem serve_enabled (hserved : (s.pc j).ticket = some s.owner) : ∃ a s', goesOn j a ∧ step s a = some s' := by
  cases hpc : s.pc j with
  | spin k => exact ⟨.step j, _, .inl rfl, by simp only [step, threadStep, hpc]; rfl⟩
  | holding k => exact ⟨.unlock j, _, .inr rfl, by simp only [step, hpc]; rfl⟩
  | unlock k => exact ⟨.step j, _, .inl rfl, by simp only [step, threadStep, hpc]; rfl⟩
  | _ =>
    rw [hpc] at hserved
    cases hserved

omit [DecidableEq ι] in
theorem thread_of_goesOn (h : goesOn j a) : a.thread = j := by
  rcases h with rfl | rfl <;> rfl

/-- Somebody has the ticket that is served, as long as a ticket was not. -/
theorem exists_serves (r : Reach (system ι) anyStep s) (hpc : s.pc i = .spin k) : ∃ j, Serves k s j
    (3 * (k - s.owner) + (s.pc j).left) := by
  obtain ⟨h, hi⟩ := reach_inv r
  have hb := hi.ticket_bounds (i := i) (k := k) (by rw [hpc]; rfl)
  obtain ⟨j, hj⟩ := (hi.drawn s.owner).2 ⟨le_rfl, by omega⟩
  exact ⟨j, hj, rfl⟩

theorem left_le (p : Pc) : p.left ≤ 2 := by cases p <;> simp only [Pc.left] <;> decide

/-- With ticket `k`, to the critical section. -/
def response (i : ι) (k : Nat) :
    Response (system ι) goesOn (fun s => s.pc i = .spin k) (fun s => s.pc i = .holding k) where
  helps := Serves k
  someone s r hpc := by
    obtain ⟨j, hj⟩ := exists_serves r hpc
    exact ⟨j, _, hj⟩
  enabled s j n _ _ hj := serve_enabled hj.1
  step s j n a s' r hpc hj hs := by
    obtain ⟨h, hi⟩ := reach_inv r
    have hle := (hi.ticket_bounds (i := i) (k := k) (by rw [hpc]; rfl)).1
    rcases eq_or_ne a.thread j with ha | ha
    · -- the thread whose ticket is served
      rcases serve_cases hj.1 hs ha with ⟨hold, hnew, howner⟩ | ⟨hold, hnew, howner⟩ | ⟨hold, howner, hnext⟩
      · rcases eq_or_ne i j with rfl | hij
        · rw [hpc] at hold
          cases hold
          exact .inl hnew
        · refine .inr ⟨(pc_of_ne hs (ha ▸ hij)).trans hpc, .inl ⟨j, _, ?_, by rw [hnew, howner]; rfl, rfl⟩⟩
          rw [hj.2, howner, hnew, hold]
          exact Nat.lt_succ_self _
      · have hij : i ≠ j := by
          rintro rfl
          rw [hpc] at hold
          cases hold
        refine .inr ⟨(pc_of_ne hs (ha ▸ hij)).trans hpc, .inl ⟨j, _, ?_, by rw [hnew, howner]; rfl, rfl⟩⟩
        rw [hj.2, howner, hnew, hold]
        exact Nat.lt_succ_self _
      · have hij : i ≠ j := by
          rintro rfl
          rw [hpc] at hold
          cases hold
        have hpc' : s'.pc i = .spin k := (pc_of_ne hs (ha ▸ hij)).trans hpc
        obtain ⟨j', hj'⟩ := exists_serves (r.step trivial hs) hpc'
        refine .inr ⟨hpc', .inl ⟨j', _, ?_, hj'⟩⟩
        have hlt : s.owner ≠ k := by
          rintro rfl
          exact hij (hi.unique i j _ (by rw [hpc]; rfl) hj.1)
        have hleft := left_le (s'.pc j')
        rw [hj.2, howner]
        omega
    · -- another one draws a ticket at most
      have hnot : ¬ goesOn j a := fun h => ha (thread_of_goesOn h)
      have howner : s'.owner = s.owner := by
        refine owner_eq hs fun k' hk' => ha ?_
        have hin := hi.inside a.thread k' (by rw [hk']; rfl) (by rw [hk']; rfl)
        exact hi.unique _ _ _ (by rw [hk', hin]; rfl) hj.1
      have hserves : Serves k s' j n := by
        rw [Serves, pc_of_ne hs ha.symm, howner]
        exact hj
      rcases eq_or_ne i a.thread with rfl | hia
      · have hne : s.owner ≠ k := by
          rintro rfl
          exact ha (hi.unique _ j _ (by rw [hpc]; rfl) hj.1)
        cases a with
        | step i =>
          have hpc : s.pc i = .spin k := hpc
          simp only [system, step, threadStep, hpc, if_neg hne, Option.some.injEq] at hs
          subst hs
          exact .inr ⟨hpc, .inr ⟨hnot, hj⟩⟩
        | _ i =>
          have hpc : s.pc i = .spin k := hpc
          simp only [system, step, hpc] at hs
          cases hs
      · exact .inr ⟨(pc_of_ne hs hia).trans hpc, .inr ⟨hnot, hserves⟩⟩

/-- `Lock` draws its ticket. -/
theorem draws {r : Infinite (system ι)} (fair : WeaklyFair r (goesOn i)) :
    LeadsTo r (fun s => s.pc i = .lock) fun s => ∃ k, s.pc i = .spin k := by
  refine LeadsTo.next fair (fun s _ hpc => ⟨.step i, s.draw.setPc i (.spin s.nextFree), .inl rfl, ?_⟩)
    fun s a s' _ hpc hs => ?_
  · change threadStep s i = _
    rw [threadStep, hpc]
  · rcases eq_or_ne i a.thread with rfl | hia
    · cases a with
      | step i =>
        have hpc : s.pc i = .lock := hpc
        simp only [system, step, threadStep, hpc, Option.some.injEq] at hs
        subst hs
        exact .inl ⟨s.nextFree, update_self ..⟩
      | _ i =>
        have hpc : s.pc i = .lock := hpc
        simp only [system, step, hpc] at hs
        cases hs
    · exact .inr ⟨(pc_of_ne hs hia).trans hpc, fun h => hia (thread_of_goesOn h).symm⟩

/-- A thread that has called `Lock`. -/
def Pc.locking : Pc → Bool
  | .lock | .spin _ => true
  | _ => false

/-- Whoever calls `Lock` gets the lock, whatever the others do with `Lock` and `TryLock`. -/
theorem lock_acquires (r : Infinite (system ι)) (fair : ∀ j, WeaklyFair r (goesOn j)) (i : ι) :
    LeadsTo r (fun s => (s.pc i).locking = true) fun s => ∃ k, s.pc i = .holding k := by
  have hspin : LeadsTo r (fun s => ∃ k, s.pc i = .spin k) fun s => ∃ k, s.pc i = .holding k := by
    rintro n ⟨k, hpc⟩
    obtain ⟨m, hm, h⟩ := (response i k).leadsTo r fair n hpc
    exact ⟨m, hm, k, h⟩
  intro n h
  cases hpc : (r.state n).pc i with
  | lock => exact ((draws (fair i)).trans hspin) n hpc
  | spin k => exact hspin n ⟨k, hpc⟩
  | _ =>
    rw [hpc] at h
    cases h

theorem pc_setPc {q : Pc} : (s.setPc i q).pc i = q := update_self ..

/-! Two threads: -/

/-- Thread 0 goes on as long as it has something to do, then thread 1. -/
def turn (s : State (Fin 2)) : Fin 2 := if s.pc 0 = .idle then 1 else 0

def next (s : State (Fin 2)) : Act (Fin 2) :=
  match s.pc (turn s) with
  | .idle => .lock (turn s)
  | .holding _ => .unlock (turn s)
  | _ => .step (turn s)

theorem next_enabled (s : State (Fin 2)) : ∃ s', step s (next s) = some s' := by
  simp only [next]
  cases hpc : s.pc (turn s) <;> simp only [step, threadStep, hpc] <;> exact ⟨_, rfl⟩

theorem next_thread (s : State (Fin 2)) : (next s).thread = turn s := by
  simp only [next]
  split <;> rfl

/-- Whoever has something to do does it when it is its turn. -/
theorem next_goesOn {s : State (Fin 2)} {i : Fin 2} (hi : s.pc i ≠ .idle → turn s = i)
    (hen : ∃ a s', goesOn i a ∧ step s a = some s') : goesOn i (next s) := by
  have hne : s.pc i ≠ .idle := by
    intro hidle
    obtain ⟨a, s', rfl | rfl, hs⟩ := hen
    · simp only [step, threadStep, hidle] at hs
      cases hs
    · simp only [step, hidle] at hs
      cases hs
  obtain rfl := hi hne
  simp only [next]
  split
  · next hidle => exact absurd hidle hne
  · exact .inr rfl
  · exact .inl rfl

/-- Thread 0 leaves the critical section in two steps, and does not come back. -/
theorem leaves {r : Infinite (system (Fin 2))} (hact : ∀ n, r.act n = next (r.state n))
    (h : (r.state 0).pc 0 = .holding k) (n : Nat) : (r.state (n + 2)).pc 0 = .idle := by
  have hstep : ∀ n, step (r.state n) (next (r.state n)) = some (r.state (n + 1)) := fun n => hact n ▸ r.step n
  induction n with
  | zero =>
    have h0 := hstep 0
    have hturn : turn (r.state 0) = 0 := if_neg (by rw [h]; rintro ⟨⟩)
    have h1 : (r.state 1).pc 0 = .unlock k := by
      simp only [next, hturn, h, step, Option.some.injEq] at h0
      rw [← h0]
      exact pc_setPc
    have h1' := hstep 1
    have hturn : turn (r.state 1) = 0 := if_neg (by rw [h1]; rintro ⟨⟩)
    simp only [next, hturn, h1, step, threadStep, Option.some.injEq] at h1'
    rw [← h1']
    exact pc_setPc
  | succ n ih =>
    rw [pc_of_ne (hstep (n + 2)), ih]
    rw [next_thread, turn, if_pos ih]
    decide

theorem fair_of_next {r : Infinite (system (Fin 2))} (hact : ∀ n, r.act n = next (r.state n))
    (h : (r.state 0).pc 0 = .holding k) (j : Fin 2) : WeaklyFair r (goesOn j) := by
  refine .of_turns fun n => ⟨n + 2, Nat.le_add_right .., fun hen => ?_⟩
  rw [hact]
  refine next_goesOn (fun hne => ?_) hen
  rw [turn, if_pos (leaves hact h n)]
  match j with
  | 0 => exact absurd (leaves hact h n) hne
  | 1 => rfl

/-- Thread 0 has the lock, and thread 1 waits for it. -/
def lockBoth : List (Act (Fin 2)) := [.lock 0, .step 0, .step 0, .lock 1, .step 1]

theorem lock_acquires_second : ∃ (r : Infinite (system (Fin 2))) (n k : Nat), (r.state 0).pc 0 = .holding 0 ∧
    (r.state 0).pc 1 = .spin 1 ∧ (r.state n).pc 1 = .holding k := by
  obtain ⟨s, hr, hp⟩ := Reach.of_exec_any (system (Fin 2)) lockBoth
    (fun s => decide (s.pc 0 = .holding 0 ∧ s.pc 1 = .spin 1)) (s := init) rfl (by decide)
  obtain ⟨h0, h1⟩ := of_decide_eq_true hp
  let r : Infinite (system (Fin 2)) := Infinite.follow (I := fun _ => True) next hr trivial fun s _ _ => by
    obtain ⟨s', hs'⟩ := next_enabled s
    exact ⟨s', hs', trivial⟩
  have hlocking : ((r.state 0).pc 1).locking = true := by
    change (s.pc 1).locking = true
    rw [h1]
    rfl
  obtain ⟨n, -, k, hk⟩ := lock_acquires r (fair_of_next (fun _ => rfl) h0) 1 0 hlocking
  exact ⟨r, n, k, h0, h1, hk⟩

end TicketLock

namespace QueueSpinLock

variable {A ι : Type} [DecidableEq A] [DecidableEq ι] {s s' : State A ι} {a : Act A ι} {i j : ι} {g g' : Ref A}
  {n m : Nat} {p p' : Place A}

/-- Thread `i` goes on with `Acquire` or `Release`, or leaves the critical section. -/
def goesOn (i : ι) (a : Act A ι) : Prop := a = .step i ∨ a = .destroy i

def Act.thread : Act A ι → ι
  | .construct i _ | .destroy i | .step i => i

omit [DecidableEq A] [DecidableEq ι] in
theorem thread_of_goesOn (h : goesOn j a) : a.thread = j := by
  rcases h with rfl | rfl <;> rfl

/-! ### The steps of a thread in the queue -/

/-- Where a thread in the queue goes; `none`: it has released the lock. -/
inductive Goes (s : State A ι) (g : Ref A) : Place A → Option (Place A) → Prop where
  | first : Goes s g (.storeOwner none) (some .spin)
  | behind (prev : Ref A) : Goes s g (.storeOwner (some prev)) (some (.link prev))
  | link (prev : Ref A) : Goes s g (.link prev) (some .spin)
  | acquire (howner : (s.cell g).isOwner = true) : Goes s g .spin (some .critical)
  | wait (howner : (s.cell g).isOwner = false) : Goes s g .spin (some .spin)
  | leave : Goes s g .critical (some .loadNext)
  | alone (hnext : (s.cell g).next = none) : Goes s g .loadNext (some .cas)
  | found (hnext : (s.cell g).next ≠ none) : Goes s g .loadNext (some .loadNextAgain)
  | clear (htail : s.tail.map Ref.addr = some g.addr) : Goes s g .cas none
  | again (htail : s.tail.map Ref.addr ≠ some g.addr) : Goes s g .cas (some .loadNext)
  | next (next : Ref A) : Goes s g .loadNextAgain (some (.handOver next))
  | handOver (next : Ref A) : Goes s g (.handOver next) none

/-- A thread in the queue is where it has gone. -/
def Moved (s s' : State A ι) (i : ι) (g : Ref A) (n : Nat) : Option (Place A) → Prop
  | some p => s'.pc i = .queued g n p ∧ s'.released = s.released
  | none => s'.pc i = .released g ∧ s'.released = s.released + 1

theorem goes_of_step (hi : s.pc i = .queued g n p) (hs : step s a = some s') (ha : a.thread = i) :
    ∃ p', Goes s g p p' ∧ Moved s s' i g n p' ∧ s'.exchanged = s.exchanged := by
  cases a with
  | construct k x =>
    obtain rfl : k = i := ha
    simp only [step, hi] at hs
    cases hs
  | destroy k =>
    obtain rfl : k = i := ha
    cases p with
    | critical =>
      simp only [step, hi, Option.some.injEq] at hs
      subst hs
      exact ⟨_, .leave, ⟨update_self .., rfl⟩, rfl⟩
    | _ =>
      simp only [step, hi] at hs
      cases hs
  | step k =>
    obtain rfl : k = i := ha
    have hs : placeStep s k g n p = some s' := by simpa only [step, hi] using hs
    cases p with
    | storeOwner prev =>
      cases prev with
      | none =>
        obtain rfl := Option.some.inj hs
        exact ⟨_, .first, ⟨update_self .., rfl⟩, rfl⟩
      | some prev =>
        obtain rfl := Option.some.inj hs
        exact ⟨_, .behind prev, ⟨update_self .., rfl⟩, rfl⟩
    | link prev =>
      obtain rfl := Option.some.inj hs
      exact ⟨_, .link prev, ⟨update_self .., rfl⟩, rfl⟩
    | spin =>
      simp only [placeStep] at hs
      split at hs
      · next howner =>
        obtain rfl := Option.some.inj hs
        exact ⟨_, .acquire howner, ⟨update_self .., rfl⟩, rfl⟩
      · next howner =>
        obtain rfl := Option.some.inj hs
        exact ⟨_, .wait (Bool.eq_false_of_not_eq_true howner), ⟨hi, rfl⟩, rfl⟩
    | critical => cases hs
    | loadNext =>
      simp only [placeStep] at hs
      split at hs
      · next hnext =>
        obtain rfl := Option.some.inj hs
        exact ⟨_, .alone hnext, ⟨update_self .., rfl⟩, rfl⟩
      · next r hnext =>
        obtain rfl := Option.some.inj hs
        exact ⟨_, .found (by rw [hnext]; exact Option.some_ne_none r), ⟨update_self .., rfl⟩, rfl⟩
    | cas =>
      simp only [placeStep] at hs
      split at hs
      · next htail =>
        obtain rfl := Option.some.inj hs
        exact ⟨_, .clear htail, ⟨update_self .., rfl⟩, rfl⟩
      · next htail =>
        obtain rfl := Option.some.inj hs
        exact ⟨_, .again htail, ⟨update_self .., rfl⟩, rfl⟩
    | loadNextAgain =>
      simp only [placeStep] at hs
      split at hs
      · cases hs
      · next r hnext =>
        obtain rfl := Option.some.inj hs
        exact ⟨_, .next r, ⟨update_self .., rfl⟩, rfl⟩
    | handOver next =>
      obtain rfl := Option.some.inj hs
      exact ⟨_, .handOver next, ⟨update_self .., rfl⟩, rfl⟩

/-- Whoever is in the queue can go on. -/
theorem queued_enabled (h : Inv s) (hi : s.pc i = .queued g n p) : ∃ a s', goesOn i a ∧ step s a = some s' := by
  cases p with
  | critical => exact ⟨.destroy i, s.setPc i (.queued g n .loadNext), .inr rfl, by simp only [step, hi]⟩
  | loadNextAgain =>
    obtain ⟨next, hnext⟩ := Option.ne_none_iff_exists'.1 (h.found i g n _ hi)
    refine ⟨.step i, s.setPc i (.queued g n (.handOver next)), .inl rfl, ?_⟩
    simp only [step, hi, placeStep, hnext]
  | storeOwner prev =>
    refine ⟨.step i, ?_⟩
    cases prev <;> simp only [step, hi, placeStep] <;> exact ⟨_, .inl rfl, rfl⟩
  | _ =>
    refine ⟨.step i, ?_⟩
    simp only [step, hi, placeStep]
    first
      | exact ⟨_, .inl rfl, rfl⟩
      | split <;> exact ⟨_, .inl rfl, rfl⟩

/-- A step of a thread that is not in the queue. -/
theorem outside_of_step (hi : ∀ g n p, s.pc a.thread ≠ .queued g n p) (hs : step s a = some s') :
    s'.released = s.released ∧ (s'.exchanged = s.exchanged ∨
      ∃ g, s'.pc a.thread = .queued g s.exchanged.length (.storeOwner s.tail)) := by
  cases a with
  | construct k x =>
    simp only [step] at hs
    split at hs
    · obtain rfl := Option.some.inj hs
      exact ⟨rfl, .inl rfl⟩
    · cases hs
  | destroy k =>
    simp only [step] at hs
    split at hs
    · next hk => exact absurd hk (hi _ _ _)
    · cases hs
  | step k =>
    simp only [step] at hs
    split at hs
    · cases hs
    · next g _ =>
      obtain rfl := Option.some.inj hs
      exact ⟨rfl, .inr ⟨g, update_self ..⟩⟩
    · next hk => exact absurd hk (hi _ _ _)
    · obtain rfl := Option.some.inj hs
      exact ⟨rfl, .inl rfl⟩

/-- The other threads stay where they are. -/
theorem pc_of_ne (hs : step s a = some s') (hj : j ≠ a.thread) : s'.pc j = s.pc j := by
  cases a with
  | construct k x =>
    simp only [step] at hs
    split at hs
    · obtain rfl := Option.some.inj hs
      exact update_of_ne hj ..
    · cases hs
  | destroy k =>
    simp only [step] at hs
    split at hs
    · obtain rfl := Option.some.inj hs
      exact update_of_ne hj ..
    · cases hs
  | step k =>
    simp only [step] at hs
    split at hs
    · cases hs
    · obtain rfl := Option.some.inj hs
      exact update_of_ne hj ..
    · next g n p hk =>
      cases p with
      | storeOwner prev =>
        cases prev with
        | _ =>
          obtain rfl := Option.some.inj hs
          exact update_of_ne hj ..
      | critical => cases hs
      | link prev =>
        obtain rfl := Option.some.inj hs
        exact update_of_ne hj ..
      | handOver next =>
        obtain rfl := Option.some.inj hs
        exact update_of_ne hj ..
      | spin =>
        simp only [placeStep] at hs
        split at hs
        · obtain rfl := Option.some.inj hs
          exact update_of_ne hj ..
        · obtain rfl := Option.some.inj hs
          rfl
      | loadNextAgain =>
        simp only [placeStep] at hs
        split at hs
        · cases hs
        · obtain rfl := Option.some.inj hs
          exact update_of_ne hj ..
      | _ =>
        simp only [placeStep] at hs
        split at hs
        · obtain rfl := Option.some.inj hs
          exact update_of_ne hj ..
        · obtain rfl := Option.some.inj hs
          exact update_of_ne hj ..
    · obtain rfl := Option.some.inj hs
      exact update_of_ne hj ..

/-! ### Who waits -/

/-- The pointer to the `Guard` is stored. -/
def Place.linked : Place A → Bool
  | .storeOwner _ | .link _ => false
  | _ => true

/-- The steps to that. -/
def Place.toLink : Place A → Nat
  | .storeOwner _ => 2
  | .link _ => 1
  | _ => 0

/-- The steps of the first to the end of `Release`'s effect; it may go round before the one behind it is linked. -/
def Place.left (linked : Bool) : Place A → Nat
  | .storeOwner _ | .link _ => 9
  | .spin => 8
  | .critical => 7
  | .cas => if linked then 4 else 5
  | .loadNext => if linked then 3 else 5
  | .loadNextAgain => 2
  | .handOver _ => 1

/-- Thread `i` waits with ticket `n`. -/
def Waits (i : ι) (n : Nat) (s : State A ι) : Prop := ∃ g p, s.pc i = .queued g n p ∧ p.holds = false

/-- The first and the one behind it. -/
structure Front (s : State A ι) (i : ι) (p : Place A) (j : ι) (p' : Place A) : Prop where
  first : ∃ g, s.pc i = .queued g s.released p
  second : ∃ g, s.pc j = .queued g (s.released + 1) p'

/-- Thread `k` helps the one with ticket `n`. -/
def Helps (n : Nat) (s : State A ι) (k : ι) (d : Nat) : Prop :=
  (∃ g p, n = s.released ∧ s.pc k = .queued g s.released p ∧ d = p.left true) ∨
  ∃ i p j p', s.released < n ∧ Front s i p j p' ∧ d = 20 * (n - s.released) + p.left p'.linked + p'.toLink ∧
    k = if p.releasing = true ∧ p'.linked = false then j else i

omit [DecidableEq A] [DecidableEq ι] in
theorem left_le (linked : Bool) (p : Place A) : p.left linked ≤ 9 := by
  cases p <;> cases linked <;> simp only [Place.left] <;> decide

omit [DecidableEq A] [DecidableEq ι] in
theorem toLink_le (p : Place A) : p.toLink ≤ 2 := by
  cases p <;> simp only [Place.toLink] <;> decide

omit [DecidableEq A] [DecidableEq ι] in
theorem Inv.front (h : Inv s) (hi : s.pc i = .queued g n p) (hn : s.released < n) :
    ∃ k q j q', Front s k q j q' := by
  have hlt := h.ticket_lt hi
  obtain ⟨k, r, q, hk⟩ := h.exists_queued (Nat.le_refl _) (hn.trans hlt)
  obtain ⟨j, r', q', hj⟩ := h.exists_queued (Nat.le_succ _) (hlt.trans_le' hn)
  exact ⟨k, q, j, q', ⟨r, hk⟩, ⟨r', hj⟩⟩

omit [DecidableEq A] [DecidableEq ι] in
theorem Inv.exists_helps (h : Inv s) (hi : s.pc i = .queued g n p) :
    ∃ k d, Helps n s k d ∧ d < 20 * (n - s.released) + 12 := by
  rcases Nat.eq_or_lt_of_le (h.ticket _ _ _ _ hi).2 with hn | hn
  · subst hn
    have hleft := left_le true p
    exact ⟨i, _, .inl ⟨g, p, rfl, hi, rfl⟩, by omega⟩
  · obtain ⟨k, q, j, q', hf⟩ := h.front hi hn
    have hleft := left_le q'.linked q
    have hlink := toLink_le q'
    exact ⟨_, _, .inr ⟨k, q, j, q', hn, hf, rfl, rfl⟩, by omega⟩

section front

variable {k : ι} {q q' : Place A}

omit [DecidableEq A] [DecidableEq ι] in
theorem Front.ne (hf : Front s k q j q') : k ≠ j := by
  rintro rfl
  obtain ⟨g, hk⟩ := hf.first
  obtain ⟨g', hj⟩ := hf.second
  rw [hk] at hj
  injection hj with _ hn
  exact Nat.succ_ne_self _ hn.symm

omit [DecidableEq A] [DecidableEq ι] in
/-- The first sees in its `next_` whether the one behind it is linked. -/
theorem Front.next (h : Inv s) (hf : Front s k q j q') (hk : s.pc k = .queued g s.released q) :
    q'.linked = true ∧ q' = .spin ∧ (s.cell g).next ≠ none ∨ q'.linked = false ∧ (s.cell g).next = none := by
  obtain ⟨g', hj⟩ := hf.second
  rcases h.joined _ _ _ _ _ _ _ hk hj with ⟨rfl | rfl, hnext⟩ | ⟨rfl, hnext⟩
  · exact .inr ⟨rfl, hnext⟩
  · exact .inr ⟨rfl, hnext⟩
  · exact .inl ⟨rfl, rfl, by rw [hnext]; exact Option.some_ne_none g'⟩

/-- Nobody but the first makes another one the first. -/
theorem released_eq (h : Inv s) (hk : s.pc k = .queued g s.released q) (hs : step s a = some s')
    (ha : k ≠ a.thread) : s'.released = s.released := by
  by_cases hout : ∀ g n p, s.pc a.thread ≠ .queued g n p
  · exact (outside_of_step hout hs).1
  · simp only [not_forall, not_not] at hout
    obtain ⟨r, n, p, hi⟩ := hout
    obtain ⟨p', hgoes, hmoved, -⟩ := goes_of_step hi hs rfl
    cases p' with
    | some p' => exact hmoved.2
    | none =>
      have hp : p.holds = true := by
        cases hgoes with
        | clear htail => rfl
        | handOver next => rfl
      obtain rfl := h.first_of_holds hi hp
      exact absurd (h.ticket_unique hk hi) ha

/-- A step of the first that does not release the lock. -/
theorem Front.first_step (h : Inv s) (hf : Front s k q j q') (hs : step s a = some s') (ha : a.thread = k) :
    (∃ p, Front s' k p j q' ∧ s'.released = s.released ∧ (p.left q'.linked < q.left q'.linked ∨
      p.left q'.linked = q.left q'.linked ∧ p.releasing = true ∧ q.releasing = true ∧ q'.linked = false)) ∨
      s'.released = s.released + 1 := by
  obtain ⟨g, hk⟩ := hf.first
  obtain ⟨p', hgoes, hmoved, -⟩ := goes_of_step hk hs ha
  cases p' with
  | none => exact .inr hmoved.2
  | some p =>
    obtain ⟨hpc, hrel⟩ := hmoved
    have hj : s'.pc j = s.pc j := pc_of_ne hs (ha ▸ (hf.ne).symm)
    refine .inl ⟨p, ⟨⟨g, hpc.trans (by rw [hrel])⟩, ?_⟩, hrel, ?_⟩
    · obtain ⟨g', hj'⟩ := hf.second
      exact ⟨g', by rw [hj, hj', hrel]⟩
    have hleads := h.leads _ _ _ hk
    cases hgoes with
    | first => exact .inl (Nat.lt_succ_self 8)
    | behind prev =>
      rcases hleads with he | ⟨-, he | he⟩
      · cases he
      · cases he
      · cases he
    | link prev =>
      rcases hleads with he | ⟨-, he | he⟩
      · cases he
      · cases he
      · cases he
    | acquire howner => exact .inl (Nat.lt_succ_self 7)
    | wait howner =>
      rcases hleads with he | ⟨he, -⟩
      · cases he
      · rw [howner] at he
        cases he
    | leave =>
      refine .inl ?_
      cases q'.linked with
      | true => exact (by decide : 3 < 7)
      | false => exact (by decide : 5 < 7)
    | alone hnext =>
      rcases hf.next h hk with ⟨-, -, hsome⟩ | ⟨hun, -⟩
      · exact absurd hnext hsome
      · rw [hun]
        exact .inr ⟨rfl, rfl, rfl, rfl⟩
    | found hnext =>
      rcases hf.next h hk with ⟨hl, -, -⟩ | ⟨-, hnone⟩
      · rw [hl]
        exact .inl (Nat.lt_succ_self 2)
      · exact absurd hnone hnext
    | again htail =>
      rcases hf.next h hk with ⟨hl, -, -⟩ | ⟨hun, -⟩
      · rw [hl]
        exact .inl (Nat.lt_succ_self 3)
      · rw [hun]
        exact .inr ⟨rfl, rfl, rfl, rfl⟩
    | next next => exact .inl (Nat.lt_succ_self 1)

/-- A step of the one behind it. -/
theorem Front.second_step (h : Inv s) (hf : Front s k q j q') (hs : step s a = some s') (ha : a.thread = j) :
    ∃ p, Front s' k q j p ∧ s'.released = s.released ∧
      (p.toLink < q'.toLink ∧ (p.linked = true ∨ q'.linked = false ∧ p.linked = false) ∨
        p = q' ∧ q'.linked = true) := by
  obtain ⟨g, hk⟩ := hf.first
  obtain ⟨g', hj⟩ := hf.second
  have hne := hf.ne
  have hrel := released_eq h hk hs (ha ▸ hne)
  have hk' : s'.pc k = .queued g s'.released q := by rw [pc_of_ne hs (ha ▸ hne), hk, hrel]
  obtain ⟨p', hgoes, hmoved, -⟩ := goes_of_step hj hs ha
  cases p' with
  | none =>
    have := hmoved.2
    omega
  | some p =>
    refine ⟨p, ⟨⟨g, hk'⟩, ⟨g', hmoved.1.trans (by rw [hrel])⟩⟩, hrel, ?_⟩
    have hjoin := h.joined _ _ _ _ _ _ _ hk hj
    cases hgoes with
    | first =>
      rcases hjoin with ⟨he | he, -⟩ | ⟨he, -⟩
      · cases he
      · cases he
      · cases he
    | behind prev => exact .inl ⟨Nat.lt_succ_self 1, .inr ⟨rfl, rfl⟩⟩
    | link prev => exact .inl ⟨Nat.lt_succ_self 0, .inl rfl⟩
    | acquire howner =>
      have hfirst := h.first_of_owner hj howner
      omega
    | wait howner => exact .inr ⟨rfl, rfl⟩
    | _ =>
      rcases hjoin with ⟨he | he, -⟩ | ⟨he, -⟩
      · cases he
      · cases he
      · cases he

/-- A step of another thread. -/
theorem Front.other_step (h : Inv s) (hf : Front s k q j q') (hs : step s a = some s') (hk : k ≠ a.thread)
    (hj : j ≠ a.thread) : Front s' k q j q' ∧ s'.released = s.released := by
  obtain ⟨g, hfirst⟩ := hf.first
  obtain ⟨g', hsecond⟩ := hf.second
  have hrel := released_eq h hfirst hs hk
  exact ⟨⟨⟨g, by rw [pc_of_ne hs hk, hfirst, hrel]⟩, ⟨g', by rw [pc_of_ne hs hj, hsecond, hrel]⟩⟩, hrel⟩

/-- The first releases the lock, or it is less far, or who helps helps as before. -/
theorem Front.step (h : Inv s) (hn : s.released < n) (hf : Front s k q j q')
    (hs : QueueSpinLock.step s a = some s') : s'.released = s.released + 1 ∨
    (∃ k' d', d' < 20 * (n - s.released) + q.left q'.linked + q'.toLink ∧ Helps n s' k' d') ∨
      ¬ goesOn (if q.releasing = true ∧ q'.linked = false then j else k) a ∧
        Helps n s' (if q.releasing = true ∧ q'.linked = false then j else k)
          (20 * (n - s.released) + q.left q'.linked + q'.toLink) := by
  by_cases hak : a.thread = k
  · rcases hf.first_step h hs hak with ⟨p₁, hf', hrel, hlt | ⟨heq, hrel₁, hrelq, hun⟩⟩ | hrel
    · exact .inr (.inl ⟨_, _, by rw [hrel]; omega, .inr ⟨k, p₁, j, q', hrel ▸ hn, hf', rfl, rfl⟩⟩)
    · -- it goes round, and waits for the one behind it
      refine .inr (.inr ⟨?_, .inr ⟨k, p₁, j, q', hrel ▸ hn, hf', by rw [hrel, heq], ?_⟩⟩)
      · rw [if_pos ⟨hrelq, hun⟩]
        exact fun hg => hf.ne (hak.symm.trans (thread_of_goesOn hg))
      · rw [if_pos ⟨hrelq, hun⟩, if_pos ⟨hrel₁, hun⟩]
    · exact .inl hrel
  · by_cases haj : a.thread = j
    · obtain ⟨p₁, hf', hrel, ⟨hlt, hlinked⟩ | ⟨rfl, hlinked⟩⟩ := hf.second_step h hs haj
      · have hleft : q.left p₁.linked ≤ q.left q'.linked := by
          rcases hlinked with hl | ⟨hq', hp₁⟩
          · rw [hl]
            cases q'.linked with
            | true => exact Nat.le_refl _
            | false => cases q <;> simp only [Place.left] <;> decide
          · rw [hp₁, hq']
        exact .inr (.inl ⟨_, _, by rw [hrel]; omega, .inr ⟨k, q, j, p₁, hrel ▸ hn, hf', rfl, rfl⟩⟩)
      · refine .inr (.inr ⟨?_, .inr ⟨k, q, j, p₁, hrel ▸ hn, hf', by rw [hrel], rfl⟩⟩)
        rw [if_neg fun hc => Bool.false_ne_true (hc.2.symm.trans hlinked)]
        exact fun hg => hak (thread_of_goesOn hg)
    · obtain ⟨hf', hrel⟩ := hf.other_step h hs (Ne.symm hak) (Ne.symm haj)
      refine .inr (.inr ⟨?_, .inr ⟨k, q, j, q', hrel ▸ hn, hf', by rw [hrel], rfl⟩⟩)
      split
      · exact fun hg => haj (thread_of_goesOn hg)
      · exact fun hg => hak (thread_of_goesOn hg)

end front

/-- Whoever waits stays in `Acquire`, or enters. -/
theorem waits_step (h : Inv s) (hw : Waits i n s) (hs : step s a = some s') :
    Waits i n s' ∨ n = s.released ∧ ∃ g, s'.pc i = .queued g n .critical := by
  obtain ⟨g, p, hi, hp⟩ := hw
  by_cases ha : a.thread = i
  · obtain ⟨p', hgoes, hmoved, -⟩ := goes_of_step hi hs ha
    cases hgoes with
    | first => exact .inl ⟨g, _, hmoved.1, rfl⟩
    | behind prev => exact .inl ⟨g, _, hmoved.1, rfl⟩
    | link prev => exact .inl ⟨g, _, hmoved.1, rfl⟩
    | acquire howner => exact .inr ⟨h.first_of_owner hi howner, g, hmoved.1⟩
    | wait howner => exact .inl ⟨g, _, hmoved.1, rfl⟩
    | _ => cases hp
  · exact .inl ⟨g, p, (pc_of_ne hs (Ne.symm ha)).trans hi, hp⟩

/-- From the exchange to the critical section. -/
def response (i : ι) (n : Nat) : Response (system A ι) goesOn (Waits i n)
    (fun s => ∃ g, s.pc i = .queued g n .critical) where
  helps := Helps n
  someone s r hw := by
    obtain ⟨g, p, hi, -⟩ := hw
    obtain ⟨k, d, hk, -⟩ := (reach_inv r).exists_helps hi
    exact ⟨k, d, hk⟩
  enabled s k d r _ hk := by
    rcases hk with ⟨g, p, -, hk, -⟩ | ⟨i, p, j, p', -, hf, -, rfl⟩
    · exact queued_enabled (reach_inv r) hk
    · obtain ⟨g, hi⟩ := hf.first
      obtain ⟨g', hj⟩ := hf.second
      split
      · exact queued_enabled (reach_inv r) hj
      · exact queued_enabled (reach_inv r) hi
  step s k d a s' r hw hk hs := by
    have h := reach_inv r
    rcases waits_step h hw hs with hw' | ⟨-, hQ⟩
    swap
    · exact .inl hQ
    refine .inr ⟨hw', ?_⟩
    obtain ⟨g, p, hi, hp⟩ := hw
    obtain ⟨g', p', hi', hp'⟩ := hw'
    rcases hk with ⟨r, q, rfl, hk, rfl⟩ | ⟨k, q, j, q', hn, hf, rfl, rfl⟩
    · -- the one that waits is the first
      obtain rfl := h.ticket_unique hi hk
      rw [hi] at hk
      cases hk
      by_cases ha : a.thread = i
      · obtain ⟨p₁, hgoes, hmoved, -⟩ := goes_of_step hi hs ha
        cases hgoes with
        | first => exact .inl ⟨i, 8, Nat.lt_succ_self 8, .inl ⟨g, .spin, hmoved.2.symm, by rw [hmoved.1, hmoved.2], rfl⟩⟩
        | acquire howner =>
          rw [hmoved.1] at hi'
          cases hi'
          cases hp'
        | wait howner =>
          rcases h.leads _ _ _ hi with he | ⟨he, -⟩
          · cases he
          · rw [howner] at he
            cases he
        | leave => cases hp
        | _ =>
          rcases h.leads _ _ _ hi with he | ⟨-, he | he⟩
          · cases he
          · cases he
          · rw [hp] at he
            cases he
      · have hrel := released_eq h hi hs (Ne.symm ha)
        refine .inr ⟨fun hg => ha (thread_of_goesOn hg), .inl ⟨g, p, hrel.symm, ?_, rfl⟩⟩
        rw [pc_of_ne hs (Ne.symm ha), hi, hrel]
    · rcases hf.step h hn hs with hrel | hless | hsame
      · obtain ⟨k', d', hk', hd'⟩ := (reach_inv (r.step trivial hs)).exists_helps hi'
        rw [hrel] at hd'
        exact .inl ⟨k', d', by omega, hk'⟩
      · exact .inl hless
      · exact .inr hsame

/-- From the call of the constructor to the exchange. -/
theorem made_waits {r : Infinite (system A ι)} (fair : WeaklyFair r (goesOn i)) :
    LeadsTo r (fun s => ∃ g, s.pc i = .made g) fun s => ∃ n, Waits i n s := by
  refine LeadsTo.next fair (fun s _ h => ?_) fun s a s' _ h hs => ?_
  · obtain ⟨g, hi⟩ := h
    refine ⟨.step i, ?_⟩
    simp only [system, step, hi]
    exact ⟨_, .inl rfl, rfl⟩
  · obtain ⟨g, hi⟩ := h
    by_cases ha : a.thread = i
    · subst ha
      cases a with
      | step i =>
        have hi : s.pc i = .made g := hi
        simp only [system, step, hi, Option.some.injEq] at hs
        subst hs
        exact .inl ⟨s.exchanged.length, g, .storeOwner s.tail, update_self .., rfl⟩
      | construct i x =>
        have hi : s.pc i = .made g := hi
        simp only [system, step, hi] at hs
        cases hs
      | destroy i =>
        have hi : s.pc i = .made g := hi
        simp only [system, step, hi] at hs
        cases hs
    · exact .inr ⟨⟨g, (pc_of_ne hs (Ne.symm ha)).trans hi⟩, fun hg => ha (thread_of_goesOn hg)⟩

/-! ### Who releases -/

/-- Thread `i` is in `Release` with ticket `n`. -/
def Releases (i : ι) (n : Nat) (s : State A ι) : Prop := ∃ g p, s.pc i = .queued g n p ∧ p.releasing = true

/-- The steps of the only one in the queue, if no other one comes: more than if there were another one. -/
def Place.toClear : Place A → Nat
  | .loadNext => 101
  | _ => 100

/-- Thread `k` helps. -/
def Clears (i : ι) (n : Nat) (s : State A ι) (k : ι) (d : Nat) : Prop :=
  (k = i ∧ s.exchanged.length = n + 1 ∧ ∃ g p, s.pc i = .queued g n p ∧ d = p.toClear) ∨
    n = s.released ∧ d < 100 ∧ Helps (n + 1) s k d

/-- Whoever is in `Release` stays there, or is through. -/
theorem releases_step (hr : Releases i n s) (hs : step s a = some s') :
    Releases i n s' ∨ a.thread = i ∧ s'.released = s.released + 1 ∧ ∃ g, s'.pc i = .released g := by
  obtain ⟨g, p, hi, hp⟩ := hr
  by_cases ha : a.thread = i
  · obtain ⟨p', hgoes, hmoved, -⟩ := goes_of_step hi hs ha
    cases hgoes with
    | alone hnext => exact .inl ⟨g, _, hmoved.1, rfl⟩
    | found hnext => exact .inl ⟨g, _, hmoved.1, rfl⟩
    | clear htail => exact .inr ⟨ha, hmoved.2, g, hmoved.1⟩
    | again htail => exact .inl ⟨g, _, hmoved.1, rfl⟩
    | next next => exact .inl ⟨g, _, hmoved.1, rfl⟩
    | handOver next => exact .inr ⟨ha, hmoved.2, g, hmoved.1⟩
    | _ => cases hp
  · exact .inl ⟨g, p, (pc_of_ne hs (Ne.symm ha)).trans hi, hp⟩

/-- Alone in the queue, `Release` clears `tail_`. -/
theorem alone_step (h : Inv s) (hi : s.pc i = .queued g n p) (hp : p.releasing = true)
    (hlast : n + 1 = s.exchanged.length) (hs : step s a = some s') (ha : a.thread = i) (hr : Releases i n s') :
    s'.exchanged.length = n + 1 ∧ ∃ g' p', s'.pc i = .queued g' n p' ∧ p'.toClear < p.toClear := by
  obtain ⟨htail, hnone⟩ := h.last _ _ _ _ hi hlast
  obtain ⟨p', hgoes, hmoved, hexchanged⟩ := goes_of_step hi hs ha
  have hfound := h.found _ _ _ _ hi
  obtain ⟨g', q, hi', -⟩ := hr
  cases hgoes with
  | alone hnext => exact ⟨by rw [hexchanged, hlast], g, .cas, hmoved.1, Nat.lt_succ_self 100⟩
  | found hnext => exact absurd hnone hnext
  | clear heq =>
    rw [hmoved.1] at hi'
    cases hi'
  | again hne => exact absurd (by rw [htail]; rfl) hne
  | next next => exact absurd hnone hfound
  | handOver next =>
    rw [hmoved.1] at hi'
    cases hi'
  | _ => cases hp

/-- Until another one comes. -/
theorem alone_other (h : Inv s) (hi : s.pc i = .queued g s.released p) (hlast : s.released + 1 = s.exchanged.length)
    (hs : step s a = some s') (ha : i ≠ a.thread) : s'.exchanged.length = s.released + 1 ∨
      ∃ p', Front s' i p a.thread p' := by
  have hrel := released_eq h hi hs ha
  by_cases hout : ∀ g n p, s.pc a.thread ≠ .queued g n p
  · rcases (outside_of_step hout hs).2 with heq | ⟨g', hnew⟩
    · exact .inl (by rw [heq, hlast])
    · exact .inr ⟨_, ⟨g, by rw [pc_of_ne hs ha, hi, hrel]⟩, ⟨g', by rw [hnew, hrel, hlast]⟩⟩
  · simp only [not_forall, not_not] at hout
    obtain ⟨r, m, q, hj⟩ := hout
    obtain ⟨p', -, -, heq⟩ := goes_of_step hj hs rfl
    exact .inl (by rw [heq, hlast])

/-- From the beginning of `Release` to its effect. -/
def releaseResponse (i : ι) (n : Nat) : Response (system A ι) goesOn (Releases i n)
    (fun s => ∃ g, s.pc i = .released g) where
  helps := Clears i n
  someone s r hr := by
    have h := reach_inv r
    obtain ⟨g, p, hi, hp⟩ := hr
    obtain rfl := h.first_of_holds hi (holds_of_releasing hp)
    rcases Nat.eq_or_lt_of_le (h.ticket_lt hi) with hlast | hlt
    · exact ⟨i, _, .inl ⟨rfl, hlast.symm, g, p, hi, rfl⟩⟩
    · obtain ⟨j, g', q, hj⟩ := h.exists_queued (Nat.le_succ _) hlt
      have hleft := left_le q.linked p
      have hlink := toLink_le q
      exact ⟨_, _, .inr ⟨rfl, by omega, .inr ⟨i, p, j, q, Nat.lt_succ_self _, ⟨⟨g, hi⟩, ⟨g', hj⟩⟩, rfl, rfl⟩⟩⟩
  enabled s k d r hr hk := by
    have h := reach_inv r
    rcases hk with ⟨rfl, -, g, p, hi, -⟩ | ⟨-, -, ⟨g, p, -, hk, -⟩ | ⟨i, p, j, p', -, hf, -, rfl⟩⟩
    · exact queued_enabled h hi
    · exact queued_enabled h hk
    · obtain ⟨g, hi⟩ := hf.first
      obtain ⟨g', hj⟩ := hf.second
      split
      · exact queued_enabled h hj
      · exact queued_enabled h hi
  step s k d a s' r hr hk hs := by
    have h := reach_inv r
    rcases releases_step hr hs with hr' | ⟨-, -, hQ⟩
    swap
    · exact .inl hQ
    refine .inr ⟨hr', ?_⟩
    obtain ⟨g, p, hi, hp⟩ := hr
    obtain rfl := h.first_of_holds hi (holds_of_releasing hp)
    rcases hk with ⟨rfl, hlast, g', p', hi', rfl⟩ | ⟨-, hd, hk⟩
    · rw [hi] at hi'
      cases hi'
      by_cases ha : a.thread = k
      · obtain ⟨hlast', g', p', hi', hlt⟩ := alone_step h hi hp hlast.symm hs ha hr'
        exact .inl ⟨k, _, hlt, .inl ⟨rfl, hlast', g', p', hi', rfl⟩⟩
      · have hrel := released_eq h hi hs (Ne.symm ha)
        rcases alone_other h hi hlast.symm hs (Ne.symm ha) with hlast' | ⟨q, hf⟩
        · exact .inr ⟨fun hg => ha (thread_of_goesOn hg),
            .inl ⟨rfl, hlast', g, p, (pc_of_ne hs (Ne.symm ha)).trans hi, rfl⟩⟩
        · have hleft := left_le q.linked p
          have hlink := toLink_le q
          have hmany : 100 ≤ p.toClear := by cases p <;> simp only [Place.toClear] <;> decide
          refine .inl ⟨_, 20 * (s.released + 1 - s'.released) + p.left q.linked + q.toLink, by omega,
            .inr ⟨hrel.symm, by omega, .inr ⟨k, p, _, q, by omega, hf, rfl, rfl⟩⟩⟩
    · rcases hk with ⟨-, -, hne, -⟩ | ⟨k, q, j, q', hn, hf, rfl, rfl⟩
      · exact absurd hne (Nat.succ_ne_self _)
      · obtain ⟨g', p', hi', -⟩ := hr'
        have hrel : s'.released = s.released := by
          by_cases ha : a.thread = i
          · obtain ⟨p₁, -, hmoved, -⟩ := goes_of_step hi hs ha
            cases p₁ with
            | some p₁ => exact hmoved.2
            | none =>
              rw [hmoved.1] at hi'
              cases hi'
          · exact released_eq h hi hs (Ne.symm ha)
        rcases hf.step h hn hs with hrel' | ⟨k', d', hlt, hk'⟩ | ⟨hnot, hk'⟩
        · exact absurd (hrel'.symm.trans hrel) (Nat.succ_ne_self _)
        · exact .inl ⟨k', d', hlt, .inr ⟨hrel.symm, hlt.trans hd, hk'⟩⟩
        · exact .inr ⟨hnot, .inr ⟨hrel.symm, hd, hk'⟩⟩

/-- The constructor of a `Guard` was called, and has not returned. -/
def Pc.acquiring : Pc A → Bool
  | .made _ => true
  | .queued _ _ p => !p.holds
  | _ => false

/-- The destructor. -/
def Pc.releasing : Pc A → Bool
  | .queued _ _ p => p.releasing
  | _ => false

/-- Every `Acquire` enters the critical section, and every `Release` comes to its end. -/
theorem acquire_and_release_end (r : Infinite (system A ι)) (fair : ∀ j, WeaklyFair r (goesOn j)) (i : ι) :
    LeadsTo r (fun s => (s.pc i).acquiring = true) (fun s => ∃ g n, s.pc i = .queued g n .critical) ∧
      LeadsTo r (fun s => (s.pc i).releasing = true) fun s => ∃ g, s.pc i = .released g := by
  have hwaits : LeadsTo r (fun s => ∃ n, Waits i n s) fun s => ∃ g n, s.pc i = .queued g n .critical := by
    rintro x ⟨n, hw⟩
    obtain ⟨m, hm, g, h⟩ := (response i n).leadsTo r fair x hw
    exact ⟨m, hm, g, n, h⟩
  constructor
  · intro x h
    cases hpc : (r.state x).pc i with
    | made g => exact ((made_waits (fair i)).trans hwaits) x ⟨g, hpc⟩
    | queued g n p =>
      rw [hpc] at h
      exact hwaits x ⟨n, g, p, hpc, by simpa only [Pc.acquiring, Bool.not_eq_true'] using h⟩
    | _ =>
      rw [hpc] at h
      cases h
  · intro x h
    cases hpc : (r.state x).pc i with
    | queued g n p =>
      rw [hpc] at h
      exact (releaseResponse i n).leadsTo r fair x ⟨g, p, hpc, h⟩
    | _ =>
      rw [hpc] at h
      cases h

/-! Two threads: -/

/-- Thread 0 goes on as long as it has something to do, then thread 1. -/
def turn (s : State Nat (Fin 2)) : Fin 2 := if s.pc 0 = .idle then 1 else 0

/-- Every `Guard` is at a new address. -/
def next (s : State Nat (Fin 2)) : Act Nat (Fin 2) :=
  match s.pc (turn s) with
  | .idle => .construct (turn s) s.made
  | .queued _ _ .critical => .destroy (turn s)
  | _ => .step (turn s)

/-- `Guard`s are constructed at new addresses only. -/
def atNew (s : State Nat (Fin 2)) : Act Nat (Fin 2) → Bool
  | .construct _ x => x = s.made
  | _ => true

/-- No `Guard` is at an address from this one on. -/
def Fresh (s : State Nat (Fin 2)) : Prop := ∀ x, s.made ≤ x → s.live x = none

theorem atNew_next (s : State Nat (Fin 2)) : atNew s (next s) = true := by
  simp only [next]
  split
  · exact decide_eq_true rfl
  · rfl
  · rfl

theorem live_placeStep (hs : placeStep s i g n p = some s') : s'.live = s.live ∧ s'.made = s.made := by
  cases p with
  | storeOwner prev =>
    cases prev <;> obtain rfl := Option.some.inj hs <;> exact ⟨rfl, rfl⟩
  | critical => cases hs
  | link prev =>
    obtain rfl := Option.some.inj hs
    exact ⟨rfl, rfl⟩
  | handOver next =>
    obtain rfl := Option.some.inj hs
    exact ⟨rfl, rfl⟩
  | loadNextAgain =>
    simp only [placeStep] at hs
    split at hs
    · cases hs
    · obtain rfl := Option.some.inj hs
      exact ⟨rfl, rfl⟩
  | _ =>
    simp only [placeStep] at hs
    split at hs <;> obtain rfl := Option.some.inj hs <;> exact ⟨rfl, rfl⟩

theorem Fresh.step {s s' : State Nat (Fin 2)} {a : Act Nat (Fin 2)} (hf : Fresh s) (ha : atNew s a = true)
    (hs : QueueSpinLock.step s a = some s') : Fresh s' := by
  cases a with
  | construct i x =>
    obtain rfl := of_decide_eq_true ha
    simp only [QueueSpinLock.step] at hs
    split at hs
    · obtain rfl := Option.some.inj hs
      intro y hy
      have hy : s.made + 1 ≤ y := hy
      exact (update_of_ne (by omega) ..).trans (hf y (by omega))
    · cases hs
  | destroy i =>
    simp only [QueueSpinLock.step] at hs
    split at hs
    · obtain rfl := Option.some.inj hs
      exact hf
    · cases hs
  | step i =>
    simp only [QueueSpinLock.step] at hs
    split at hs
    · cases hs
    · obtain rfl := Option.some.inj hs
      exact hf
    · obtain ⟨hlive, hmade⟩ := live_placeStep hs
      intro y hy
      rw [hlive]
      exact hf y (hmade ▸ hy)
    · next g _ =>
      obtain rfl := Option.some.inj hs
      intro y hy
      change update s.live g.addr none y = none
      rcases eq_or_ne y g.addr with rfl | hne
      · rw [update_self]
      · rw [update_of_ne hne]
        exact hf y hy

theorem next_enabled {s : State Nat (Fin 2)} (h : Inv s) (hf : Fresh s) : ∃ s', step s (next s) = some s' := by
  simp only [next]
  cases hpc : s.pc (turn s) with
  | idle => exact ⟨_, by simp only [step, hpc, hf s.made le_rfl]; rfl⟩
  | queued g n p =>
    obtain ⟨a, s', hgoes, hs⟩ := queued_enabled h hpc
    cases p with
    | critical => exact ⟨_, by simp only [step, hpc]; rfl⟩
    | _ =>
      rcases hgoes with rfl | rfl
      · exact ⟨s', hs⟩
      · simp only [step, hpc] at hs
        cases hs
  | _ => exact ⟨_, by simp only [step, hpc]; rfl⟩

theorem next_thread (s : State Nat (Fin 2)) : (next s).thread = turn s := by
  simp only [next]
  split <;> rfl

/-- Whoever has something to do does it when it is its turn. -/
theorem next_goesOn {s : State Nat (Fin 2)} {i : Fin 2} (hi : s.pc i ≠ .idle → turn s = i)
    (hen : ∃ a s', goesOn i a ∧ step s a = some s') : goesOn i (next s) := by
  have hne : s.pc i ≠ .idle := by
    intro hidle
    obtain ⟨a, s', rfl | rfl, hs⟩ := hen
    · simp only [step, hidle] at hs
      cases hs
    · simp only [step, hidle] at hs
      cases hs
  obtain rfl := hi hne
  simp only [next]
  split
  · next hidle => exact absurd hidle hne
  · exact .inr rfl
  · exact .inl rfl

/-- Thread 0 is in the critical section, and thread 1 waits for it. -/
def guardBoth : List (Act Nat (Fin 2)) :=
  [.construct 0 0, .step 0, .step 0, .step 0, .construct 1 1, .step 1, .step 1, .step 1]

theorem leaves {r : Infinite (system Nat (Fin 2))} (hact : ∀ n, r.act n = next (r.state n))
    (h : (r.state 5).pc 0 = .idle) (n : Nat) : (r.state (n + 5)).pc 0 = .idle := by
  have hstep : ∀ n, step (r.state n) (next (r.state n)) = some (r.state (n + 1)) := fun n => hact n ▸ r.step n
  induction n with
  | zero => exact h
  | succ n ih =>
    have hother : (0 : Fin 2) ≠ (next (r.state (n + 5))).thread := by
      rw [next_thread, turn, if_pos ih]
      decide
    rw [Nat.add_right_comm, pc_of_ne (hstep (n + 5)) hother, ih]

theorem fair_of_next {r : Infinite (system Nat (Fin 2))} (hact : ∀ n, r.act n = next (r.state n))
    (h : (r.state 5).pc 0 = .idle) (j : Fin 2) : WeaklyFair r (goesOn j) := by
  refine .of_turns fun n => ⟨n + 5, Nat.le_add_right .., fun hen => ?_⟩
  rw [hact]
  refine next_goesOn (fun hne => ?_) hen
  rw [turn, if_pos (leaves hact h n)]
  match j with
  | 0 => exact absurd (leaves hact h n) hne
  | 1 => rfl

theorem acquire_and_release_end_second : ∃ (r : Infinite (system Nat (Fin 2))) (n m k : Nat),
    (r.state 0).pc 0 = .queued ⟨0, 0⟩ 0 .critical ∧ (r.state 0).pc 1 = .queued ⟨1, 1⟩ 1 .spin ∧
      (∃ g, (r.state n).pc 1 = .queued g k .critical) ∧ ∃ g, (r.state m).pc 0 = .released g := by
  obtain ⟨s, hr, hp⟩ := Reach.of_exec (system Nat (Fin 2)) guardBoth
    (fun s => decide (s.pc 0 = .queued ⟨0, 0⟩ 0 .critical ∧ s.pc 1 = .queued ⟨1, 1⟩ 1 .spin ∧
      ((follow (system Nat (Fin 2)) next)^[1] s).pc 0 = .queued ⟨0, 0⟩ 0 .loadNext ∧
        ((follow (system Nat (Fin 2)) next)^[5] s).pc 0 = .idle))
    (fun _ _ h => h : ∀ s a, atNew s a = true → atNew s a = true) (s := init) rfl (by decide)
  obtain ⟨h0, h1, hrelease, hleft⟩ := of_decide_eq_true hp
  have hfresh : Fresh s := hr.invariant (fun _ hs => hs ▸ fun _ _ => rfl) fun _ _ _ hf ha hs => hf.step ha hs
  let r : Infinite (system Nat (Fin 2)) := Infinite.follow (I := Fresh) next (hr.mono fun _ _ _ => trivial) hfresh
    fun s hr hf => by
      obtain ⟨s', hs'⟩ := next_enabled (reach_inv hr) hf
      exact ⟨s', hs', hf.step (atNew_next s) hs'⟩
  have hfair := fair_of_next (r := r) (fun _ => rfl) hleft
  have hacquiring : ((r.state 0).pc 1).acquiring = true := by
    change (s.pc 1).acquiring = true
    rw [h1]
    rfl
  have hreleasing : ((r.state 1).pc 0).releasing = true := by
    change (((follow (system Nat (Fin 2)) next)^[1] s).pc 0).releasing = true
    rw [hrelease]
    rfl
  obtain ⟨n, -, g, k, hk⟩ := (acquire_and_release_end r hfair 1).1 0 hacquiring
  obtain ⟨m, -, hm⟩ := (acquire_and_release_end r hfair 0).2 1 hreleasing
  exact ⟨r, n, m, k, h0, h1, ⟨g, hk⟩, hm⟩

end QueueSpinLock

end Mutex
