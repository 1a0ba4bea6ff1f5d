import ConcurrencyCourse.Lib.Transition
import ConcurrencyCourse.Lib.Threads
import ConcurrencyCourse.Lib.Lock

/-!
# `BoundedBlockingQueue` over three semaphores (tasks/cond/semaphore)

Any number of threads call `Put` and `Take`.

| here | there |
| --- | --- |
| `Sem`, `State.tokens`, `State.owner` | `free_sem_`, `avail_sem_`, `mutex_sem_` (queue.hpp 48-50); `tokens_`, `wait_mtx_` of each (semaphore.hpp 40-41) |
| `AcquirePc`, `ReleasePc` | `Semaphore::Acquire`, `Release` (semaphore.hpp 23-37) |
| `Acquire`, `Release` | from where `Put` and `Take` (queue.hpp 25-45) call them, with the value that they carry |
| `Pc.holdsToken` | the `Token`s that `Put` and `Take` hold (tagged_semaphore.hpp 44-56) |

The test of `tokens_` and the change that goes with it are one step, made under `wait_mtx_`. A wait releases
the mutex and goes to sleep in one step; whoever is woken takes the mutex and tests again. `front` and
`pop_front` on an empty deque are no steps.

`queue_correct` is the main theorem.
-/

namespace Cond.BoundedBlockingQueue

open Transition Function

inductive Sem where
  | free
  | avail
  | mutex
  deriving DecidableEq, Repr

inductive AcquirePc where
  | lock
  -- the test of the wait, and `--tokens_`
  | take
  | asleep
  | unlock
  deriving DecidableEq, Repr

inductive ReleasePc where
  | lock
  -- `++tokens_`, `tokens_ == 1`
  | add
  | notifyAll
  | unlock
  deriving DecidableEq, Repr

/-- The calls of `Acquire`. -/
inductive Acquire (T : Type) where
  | putFree (v : T)
  | putMutex (v : T)
  | takeAvail
  | takeMutex
  deriving DecidableEq, Repr

/-- The calls of `Release`. -/
inductive Release (T : Type) where
  | putMutex
  | putAvail
  | takeMutex (v : T)
  | takeFree (v : T)
  deriving DecidableEq, Repr

inductive Pc (T : Type) where
  | idle
  | acquire (c : Acquire T) (p : AcquirePc)
  | pushBack (v : T)
  | front
  | popFront (v : T)
  | release (c : Release T) (p : ReleasePc)
  deriving DecidableEq, Repr

variable {T ι : Type}

def Acquire.sem : Acquire T → Sem
  | .putFree _ => .free
  | .takeAvail => .avail
  | .putMutex _ | .takeMutex => .mutex

def Release.sem : Release T → Sem
  | .takeFree _ => .free
  | .putAvail => .avail
  | .putMutex | .takeMutex _ => .mutex

/-- What comes after the call. -/
def Acquire.next : Acquire T → Pc T
  | .putFree v => .acquire (.putMutex v) .lock
  | .putMutex v => .pushBack v
  | .takeAvail => .acquire .takeMutex .lock
  | .takeMutex => .front

def Release.next : Release T → Pc T
  | .putMutex => .release .putAvail .lock
  | .takeMutex v => .release (.takeFree v) .lock
  | .putAvail | .takeFree _ => .idle

structure State (T ι : Type) where
  buffer : List T
  tokens : Sem → Nat
  owner : Sem → Option ι
  pc : ι → Pc T
  /-- Everything that was put into the buffer, oldest first. -/
  pushed : List T
  /-- What the calls of `Take` got, oldest first. -/
  popped : List T

inductive Act (T ι : Type) where
  | put (i : ι) (v : T)
  | take (i : ι)
  | step (i : ι)
  /-- A wait returns without a notification. -/
  | spurious (i : ι)

section model

variable [DecidableEq ι]

def State.setPc (s : State T ι) (i : ι) (p : Pc T) : State T ι := { s with pc := update s.pc i p }

def State.setTokens (s : State T ι) (k : Sem) (n : Nat) : State T ι :=
  { s with tokens := update s.tokens k n }

def State.setOwner (s : State T ι) (k : Sem) (o : Option ι) : State T ι :=
  { s with owner := update s.owner k o }

def Pc.woken (k : Sem) : Pc T → Pc T
  | .acquire c .asleep => .acquire c (if c.sem = k then .lock else .asleep)
  | p => p

/-- `wait_cv_.notify_all()`. -/
def State.wake (s : State T ι) (k : Sem) : State T ι := { s with pc := fun j => (s.pc j).woken k }

def acquireStep (s : State T ι) (i : ι) (c : Acquire T) : AcquirePc → Option (State T ι)
  | .lock => if s.owner c.sem = none then some ((s.setOwner c.sem (some i)).setPc i (.acquire c .take)) else none
  | .take =>
    if s.tokens c.sem ≠ 0 then
      some ((s.setTokens c.sem (s.tokens c.sem - 1)).setPc i (.acquire c .unlock))
    else some ((s.setOwner c.sem none).setPc i (.acquire c .asleep))
  | .asleep => none
  | .unlock => some ((s.setOwner c.sem none).setPc i c.next)

def releaseStep (s : State T ι) (i : ι) (c : Release T) : ReleasePc → Option (State T ι)
  | .lock => if s.owner c.sem = none then some ((s.setOwner c.sem (some i)).setPc i (.release c .add)) else none
  | .add =>
    some ((s.setTokens c.sem (s.tokens c.sem + 1)).setPc i
      (.release c (if s.tokens c.sem + 1 = 1 then .notifyAll else .unlock)))
  | .notifyAll => some ((s.wake c.sem).setPc i (.release c .unlock))
  | .unlock => some ((s.setOwner c.sem none).setPc i c.next)

def threadStep (s : State T ι) (i : ι) : Option (State T ι) :=
  match s.pc i with
  | .idle => none
  | .acquire c p => acquireStep s i c p
  | .pushBack v =>
    some ({ s with buffer := s.buffer ++ [v], pushed := s.pushed ++ [v] }.setPc i (.release .putMutex .lock))
  | .front => match s.buffer with
    | [] => none
    | v :: _ => some (s.setPc i (.popFront v))
  | .popFront v => match s.buffer with
    | [] => none
    | _ :: buffer =>
      some ({ s with buffer := buffer, popped := s.popped ++ [v] }.setPc i (.release (.takeMutex v) .lock))
  | .release c p => releaseStep s i c p

def step (s : State T ι) : Act T ι → Option (State T ι)
  | .put i v => match s.pc i with
    | .idle => some (s.setPc i (.acquire (.putFree v) .lock))
    | _ => none
  | .take i => match s.pc i with
    | .idle => some (s.setPc i (.acquire .takeAvail .lock))
    | _ => none
  | .step i => threadStep s i
  | .spurious i => match s.pc i with
    | .acquire c .asleep => some (s.setPc i (.acquire c .lock))
    | _ => none

def init (capacity : Nat) : State T ι :=
  { buffer := []
    tokens := fun
      | .free => capacity
      | .avail => 0
      | .mutex => 1
    owner := fun _ => none
    pc := fun _ => .idle
    pushed := []
    popped := [] }

variable (T ι) in
def system (capacity : Nat) : System (State T ι) (Act T ι) := ⟨fun s => s = init capacity, step⟩

end model

/-! ### Who holds what -/

/-- The semaphore whose `wait_mtx_` is locked. -/
def Pc.locks : Pc T → Option Sem
  | .acquire c .take | .acquire c .unlock => some c.sem
  | .release c .add | .release c .notifyAll | .release c .unlock => some c.sem
  | _ => none

/-- A call has a token of `free_sem_` or `avail_sem_` in its hands. -/
def Pc.holdsToken : Pc T → Bool
  | .idle => false
  | .acquire (.putFree _) p | .acquire .takeAvail p => p = .unlock
  | .release .putAvail p | .release (.takeFree _) p => p = .lock ∨ p = .add
  | _ => true

/-- In the section of `mutex_sem_`: between the token taken and the token returned. -/
def Pc.inside : Pc T → Bool
  | .acquire (.putMutex _) p | .acquire .takeMutex p => p = .unlock
  | .pushBack _ | .front | .popFront _ => true
  | .release .putMutex p | .release (.takeMutex _) p => p = .lock ∨ p = .add
  | _ => false

/-- A `Put` whose item is in the buffer, before it says so. -/
def Pc.pushed : Pc T → Bool
  | .release .putMutex _ => true
  | .release .putAvail p => p = .lock ∨ p = .add
  | _ => false

/-- A `Take` that has a token for an item, which is still in the buffer. -/
def Pc.reserved : Pc T → Bool
  | .acquire .takeAvail p => p = .unlock
  | .acquire .takeMutex _ | .front | .popFront _ => true
  | _ => false

section invariant

variable [Fintype ι]

def State.held (s : State T ι) : Nat := Threads.count (fun p => p.holdsToken = true) s.pc

def State.inside (s : State T ι) : Nat := Threads.count (fun p => p.inside = true) s.pc

def State.puts (s : State T ι) : Nat := Threads.count (fun p => p.pushed = true) s.pc

def State.takes (s : State T ι) : Nat := Threads.count (fun p => p.reserved = true) s.pc

def State.sleeps (s : State T ι) (k : Sem) : Prop := ∃ i c, s.pc i = .acquire c .asleep ∧ c.sem = k

structure Inv (capacity : Nat) (s : State T ι) : Prop where
  owned : Lock.OwnedBy Pc.locks s.owner s.pc
  tokens : s.tokens .free + s.tokens .avail + s.held = capacity
  mutex : s.tokens .mutex + s.inside = 1
  length : s.buffer.length = s.tokens .avail + s.puts + s.takes
  front : ∀ i v, s.pc i = .popFront v → s.buffer.head? = some v
  fifo : s.pushed = s.popped ++ s.buffer
  /-- Nobody sleeps at a semaphore with tokens, unless a notification is under way. -/
  awake : ∀ k, s.sleeps k → 0 < s.tokens k → ∃ i c, s.pc i = .release c .notifyAll ∧ c.sem = k

end invariant

section step

variable [DecidableEq ι] [Fintype ι] {capacity : Nat} {s s' : State T ι} {i : ι} {q : Pc T}

/-! ### The counts -/

theorem held_update (hpc : s'.pc = update s.pc i q) :
    s'.held + (s.pc i).holdsToken.toNat = s.held + q.holdsToken.toNat := by
  unfold State.held
  rw [hpc]
  exact Threads.count_toNat _

theorem inside_update (hpc : s'.pc = update s.pc i q) :
    s'.inside + (s.pc i).inside.toNat = s.inside + q.inside.toNat := by
  unfold State.inside
  rw [hpc]
  exact Threads.count_toNat _

theorem puts_update (hpc : s'.pc = update s.pc i q) :
    s'.puts + (s.pc i).pushed.toNat = s.puts + q.pushed.toNat := by
  unfold State.puts
  rw [hpc]
  exact Threads.count_toNat _

theorem takes_update (hpc : s'.pc = update s.pc i q) :
    s'.takes + (s.pc i).reserved.toNat = s.takes + q.reserved.toNat := by
  unfold State.takes
  rw [hpc]
  exact Threads.count_toNat _

/-! ### The places of the threads after a step -/

omit [Fintype ι] in
theorem sleeps_update (hpc : s'.pc = update s.pc i q) {k : Sem} (hq : ∀ c, q = .acquire c .asleep → c.sem ≠ k)
    (h : s'.sleeps k) : s.sleeps k := by
  obtain ⟨j, c, hj, hc⟩ := h
  rw [hpc] at hj
  rcases eq_or_ne j i with rfl | hji
  · rw [update_self] at hj
    exact absurd hc (hq c hj)
  · rw [update_of_ne hji] at hj
    exact ⟨j, c, hj, hc⟩

omit [Fintype ι] in
/-- Whoever is to notify still is when another thread has taken a step. -/
theorem notifier_update (hpc : s'.pc = update s.pc i q) {k : Sem}
    (hi : ∀ c, s.pc i = .release c .notifyAll → c.sem ≠ k)
    (h : ∃ j c, s.pc j = .release c .notifyAll ∧ c.sem = k) :
    ∃ j c, s'.pc j = .release c .notifyAll ∧ c.sem = k := by
  obtain ⟨j, c, hj, hc⟩ := h
  have hji : j ≠ i := by
    rintro rfl
    exact hi c hj hc
  refine ⟨j, c, ?_, hc⟩
  rw [hpc, update_of_ne hji]
  exact hj

omit [Fintype ι] in
theorem front_update (hpc : s'.pc = update s.pc i q) {b : List T}
    (h : ∀ j v, j ≠ i → s.pc j = .popFront v → b.head? = some v) (hq : ∀ v, q = .popFront v → b.head? = some v)
    (j : ι) (v : T) (hj : s'.pc j = .popFront v) : b.head? = some v := by
  rw [hpc] at hj
  rcases eq_or_ne j i with rfl | hji
  · rw [update_self] at hj
    exact hq v hj
  · rw [update_of_ne hji] at hj
    exact h j v hji hj

/-- Where a call stands in the accounts. -/
def Pc.role (p : Pc T) : Bool × Bool × Bool × Bool := (p.holdsToken, p.inside, p.pushed, p.reserved)

/-- A step that changes neither the buffer nor a number of tokens. -/
theorem Inv.move (h : Inv capacity s) (hpc : s'.pc = update s.pc i q) (hb : s'.buffer = s.buffer)
    (ht : s'.tokens = s.tokens) (hpushed : s'.pushed = s.pushed) (hpopped : s'.popped = s.popped)
    (howned : Lock.OwnedBy Pc.locks s'.owner s'.pc) (hrole : q.role = (s.pc i).role)
    (hfront : ∀ v, q = .popFront v → s.buffer.head? = some v)
    (hsleep : ∀ c, q = .acquire c .asleep → s.tokens c.sem = 0)
    (hnotify : ∀ c, s.pc i = .release c .notifyAll → ¬ s.sleeps c.sem) : Inv capacity s' := by
  simp only [Pc.role, Prod.mk.injEq] at hrole
  obtain ⟨h1, h2, h3, h4⟩ := hrole
  have hheld := held_update hpc
  have hinside := inside_update hpc
  have hputs := puts_update hpc
  have htakes := takes_update hpc
  rw [h1] at hheld
  rw [h2] at hinside
  rw [h3] at hputs
  rw [h4] at htakes
  have htok := h.tokens
  have hmtx := h.mutex
  have hlen := h.length
  refine ⟨howned, ?_, ?_, ?_, ?_, ?_, ?_⟩
  · rw [ht]
    omega
  · rw [ht]
    omega
  · rw [ht, hb]
    omega
  · rw [hb]
    exact front_update hpc (fun j v _ => h.front j v) hfront
  · rw [hb, hpushed, hpopped]
    exact h.fifo
  · intro k hs hpos
    rw [ht] at hpos
    have hsl : s.sleeps k := by
      refine sleeps_update hpc ?_ hs
      rintro c hc rfl
      exact hpos.ne' (hsleep c hc)
    refine notifier_update hpc ?_ (h.awake k hsl hpos)
    rintro c hc rfl
    exact hnotify c hc hsl

/-- A token is taken from a semaphore. -/
theorem Inv.takeToken {c : Acquire T} (h : Inv capacity s) (hp : s.pc i = .acquire c .take)
    (hpos : s.tokens c.sem ≠ 0) :
    Inv capacity ((s.setTokens c.sem (s.tokens c.sem - 1)).setPc i (.acquire c .unlock)) := by
  set s' := (s.setTokens c.sem (s.tokens c.sem - 1)).setPc i (.acquire c .unlock) with hs'
  have hpc : s'.pc = update s.pc i (.acquire c .unlock) := rfl
  have htokens : s'.tokens = update s.tokens c.sem (s.tokens c.sem - 1) := rfl
  have hheld := held_update hpc
  have hinside := inside_update hpc
  have hputs := puts_update hpc
  have htakes := takes_update hpc
  rw [hp] at hheld hinside hputs htakes
  have htok := h.tokens
  have hmtx := h.mutex
  have hlen := h.length
  have hle : ∀ k, s'.tokens k ≤ s.tokens k := by
    intro k
    rw [htokens]
    rcases eq_or_ne k c.sem with rfl | hk
    · rw [update_self]
      exact Nat.sub_le ..
    · rw [update_of_ne hk]
  have hbuf : s'.buffer = s.buffer := rfl
  refine ⟨h.owned.stay (by rw [hp]; rfl), ?_, ?_, ?_, ?_, h.fifo, ?_⟩
  · rw [htokens]
    cases c <;> simp_all [Pc.holdsToken, Acquire.sem] <;> omega
  · rw [htokens]
    cases c <;> simp_all [Pc.inside, Acquire.sem] <;> omega
  · rw [htokens, hbuf]
    cases c <;> simp_all [Pc.pushed, Pc.reserved, Acquire.sem]
    omega
  · exact front_update hpc (fun j v _ => h.front j v) nofun
  · intro k hs hposk
    refine notifier_update hpc (by rw [hp]; nofun) (h.awake k ?_ (hposk.trans_le (hle k)))
    exact sleeps_update hpc (by nofun) hs

/-- A token is returned to a semaphore; the first one is announced. -/
theorem Inv.addToken {c : Release T} (h : Inv capacity s) (hp : s.pc i = .release c .add) :
    Inv capacity ((s.setTokens c.sem (s.tokens c.sem + 1)).setPc i
      (.release c (if s.tokens c.sem + 1 = 1 then .notifyAll else .unlock))) := by
  generalize hr : (if s.tokens c.sem + 1 = 1 then ReleasePc.notifyAll else .unlock) = r
  have hr' : r = .notifyAll ∨ r = .unlock := by
    rw [← hr]
    split
    · exact .inl rfl
    · exact .inr rfl
  set s' := (s.setTokens c.sem (s.tokens c.sem + 1)).setPc i (.release c r) with hs'
  have hpc : s'.pc = update s.pc i (.release c r) := rfl
  have htokens : s'.tokens = update s.tokens c.sem (s.tokens c.sem + 1) := rfl
  have hheld := held_update hpc
  have hinside := inside_update hpc
  have hputs := puts_update hpc
  have htakes := takes_update hpc
  rw [hp] at hheld hinside hputs htakes
  have htok := h.tokens
  have hmtx := h.mutex
  have hlen := h.length
  have hbuf : s'.buffer = s.buffer := rfl
  have hlocks : (Pc.release c r).locks = (s.pc i).locks := by
    rw [hp]
    rcases hr' with rfl | rfl <;> rfl
  refine ⟨h.owned.stay hlocks, ?_, ?_, ?_, ?_, h.fifo, ?_⟩
  · rw [htokens]
    rcases hr' with rfl | rfl <;> cases c <;> simp_all [Pc.holdsToken, Release.sem] <;> omega
  · rw [htokens]
    rcases hr' with rfl | rfl <;> cases c <;> simp_all [Pc.inside, Release.sem] <;> omega
  · rw [htokens, hbuf]
    rcases hr' with rfl | rfl <;> cases c <;> simp_all [Pc.pushed, Pc.reserved, Release.sem] <;> omega
  · exact front_update hpc (fun j v _ => h.front j v) nofun
  · intro k hs hposk
    have hsl : s.sleeps k := sleeps_update hpc (by nofun) hs
    by_cases hpos : 0 < s.tokens k
    · exact notifier_update hpc (by rw [hp]; nofun) (h.awake k hsl hpos)
    · -- the semaphore was empty: this call notifies
      have hk : k = c.sem := by
        by_contra hne
        rw [htokens, update_of_ne hne] at hposk
        exact hpos hposk
      subst hk
      rw [if_pos (by omega)] at hr
      exact ⟨i, c, by rw [hpc, update_self, hr], rfl⟩

omit [DecidableEq ι] [Fintype ι] in
theorem woken_cases (k : Sem) (p : Pc T) :
    (∃ c : Acquire T, p = .acquire c .asleep ∧ c.sem = k ∧ p.woken k = .acquire c .lock) ∨
      p.woken k = p ∧ ∀ c : Acquire T, p = .acquire c .asleep → c.sem ≠ k := by
  cases p with
  | acquire c q =>
    cases q with
    | asleep =>
      by_cases hk : c.sem = k
      · exact .inl ⟨c, rfl, hk, by rw [Pc.woken, if_pos hk]⟩
      · refine .inr ⟨by rw [Pc.woken, if_neg hk], ?_⟩
        rintro _ ⟨⟩
        exact hk
    | _ => exact .inr ⟨rfl, nofun⟩
  | _ => exact .inr ⟨rfl, nofun⟩

omit [DecidableEq ι] [Fintype ι] in
theorem not_sleeps_wake (s : State T ι) (k : Sem) : ¬ (s.wake k).sleeps k := by
  rintro ⟨j, c, hj, hc⟩
  change (s.pc j).woken k = _ at hj
  rcases woken_cases k (s.pc j) with ⟨c', -, -, he⟩ | ⟨he, hno⟩
  · rw [he] at hj
    cases hj
  · rw [he] at hj
    exact hno c hj hc

omit [DecidableEq ι] [Fintype ι] in
theorem woken_role (k : Sem) (p : Pc T) : (p.woken k).role = p.role ∧ (p.woken k).locks = p.locks := by
  rcases woken_cases k p with ⟨c, rfl, -, he⟩ | ⟨he, -⟩
  · rw [he]
    cases c <;> exact ⟨rfl, rfl⟩
  · rw [he]
    exact ⟨rfl, rfl⟩

omit [DecidableEq ι] in
theorem Inv.wake (h : Inv capacity s) (k : Sem) : Inv capacity (s.wake k) := by
  have hrole := fun j => (woken_role k (s.pc j)).1
  simp only [Pc.role, Prod.mk.injEq] at hrole
  have hheld : (s.wake k).held = s.held := Threads.count_congr fun j => by
    change ((s.pc j).woken k).holdsToken = true ↔ _
    rw [(hrole j).1]
  have hinside : (s.wake k).inside = s.inside := Threads.count_congr fun j => by
    change ((s.pc j).woken k).inside = true ↔ _
    rw [(hrole j).2.1]
  have hputs : (s.wake k).puts = s.puts := Threads.count_congr fun j => by
    change ((s.pc j).woken k).pushed = true ↔ _
    rw [(hrole j).2.2.1]
  have htakes : (s.wake k).takes = s.takes := Threads.count_congr fun j => by
    change ((s.pc j).woken k).reserved = true ↔ _
    rw [(hrole j).2.2.2]
  refine ⟨h.owned.congr fun j => (woken_role k (s.pc j)).2, ?_, ?_, ?_, fun j v hj => ?_, h.fifo, ?_⟩
  · rw [hheld]
    exact h.tokens
  · rw [hinside]
    exact h.mutex
  · rw [hputs, htakes]
    exact h.length
  · change (s.pc j).woken k = _ at hj
    rcases woken_cases k (s.pc j) with ⟨c, -, -, he⟩ | ⟨he, -⟩
    · rw [he] at hj
      cases hj
    · rw [he] at hj
      exact h.front j v hj
  · rintro k' ⟨j, c, hj, hc⟩ hpos
    change (s.pc j).woken k = _ at hj
    have hsl : s.sleeps k' := by
      rcases woken_cases k (s.pc j) with ⟨c', -, -, he⟩ | ⟨he, -⟩
      · rw [he] at hj
        cases hj
      · rw [he] at hj
        exact ⟨j, c, hj, hc⟩
    obtain ⟨m, d, hm, hd⟩ := h.awake k' hsl hpos
    refine ⟨m, d, ?_, hd⟩
    change (s.pc m).woken k = _
    rw [hm]
    rfl

theorem Inv.acquireStep {c : Acquire T} {p : AcquirePc} (h : Inv capacity s) (hp : s.pc i = .acquire c p)
    (hs : acquireStep s i c p = some s') : Inv capacity s' := by
  cases p with
  | lock =>
    simp only [BoundedBlockingQueue.acquireStep] at hs
    split at hs
    · next hfree =>
      cases hs
      have howned := h.owned.take (x := i) (y := .acquire c .take) hfree (by rw [hp]; rfl) rfl
      refine h.move rfl rfl rfl rfl rfl howned ?_ nofun nofun (by rw [hp]; nofun)
      rw [hp]
      cases c <;> rfl
    · cases hs
  | take =>
    simp only [BoundedBlockingQueue.acquireStep] at hs
    split at hs
    · next hpos =>
      cases hs
      exact h.takeToken hp hpos
    · next hzero =>
      cases hs
      have howned := h.owned.drop (k := c.sem) (x := i) (y := .acquire c .asleep) (by rw [hp]; rfl) rfl
      refine h.move rfl rfl rfl rfl rfl howned ?_ nofun ?_ (by rw [hp]; nofun)
      · rw [hp]
        cases c <;> rfl
      · rintro _ ⟨⟩
        exact not_not.1 hzero
  | asleep => cases hs
  | unlock =>
    cases hs
    have howned := h.owned.drop (k := c.sem) (x := i) (y := c.next) (by rw [hp]; rfl) (by cases c <;> rfl)
    refine h.move rfl rfl rfl rfl rfl howned ?_ ?_ ?_ (by rw [hp]; nofun)
    · rw [hp]
      cases c <;> rfl
    · cases c <;> nofun
    · cases c <;> nofun

theorem Inv.releaseStep {c : Release T} {p : ReleasePc} (h : Inv capacity s) (hp : s.pc i = .release c p)
    (hs : releaseStep s i c p = some s') : Inv capacity s' := by
  cases p with
  | lock =>
    simp only [BoundedBlockingQueue.releaseStep] at hs
    split at hs
    · next hfree =>
      cases hs
      have howned := h.owned.take (x := i) (y := .release c .add) hfree (by rw [hp]; rfl) rfl
      refine h.move rfl rfl rfl rfl rfl howned ?_ nofun nofun (by rw [hp]; nofun)
      rw [hp]
      cases c <;> rfl
    · cases hs
  | add =>
    cases hs
    exact h.addToken hp
  | notifyAll =>
    cases hs
    have hw := h.wake c.sem
    have hpw : (s.wake c.sem).pc i = .release c .notifyAll := by
      change (s.pc i).woken c.sem = _
      rw [hp]
      rfl
    refine hw.move rfl rfl rfl rfl rfl (hw.owned.stay (by rw [hpw]; rfl)) ?_ nofun nofun ?_
    · rw [hpw]
      cases c <;> rfl
    · rw [hpw]
      rintro _ ⟨⟩
      exact not_sleeps_wake s c.sem
  | unlock =>
    cases hs
    have howned := h.owned.drop (k := c.sem) (x := i) (y := c.next) (by rw [hp]; rfl) (by cases c <;> rfl)
    refine h.move rfl rfl rfl rfl rfl howned ?_ ?_ ?_ (by rw [hp]; nofun)
    · rw [hp]
      cases c <;> rfl
    · cases c <;> nofun
    · cases c <;> nofun

theorem Inv.pushBack {v : T} (h : Inv capacity s) (hp : s.pc i = .pushBack v) :
    Inv capacity ({ s with buffer := s.buffer ++ [v], pushed := s.pushed ++ [v] }.setPc i
      (.release .putMutex .lock)) := by
  set s' := State.setPc { s with buffer := s.buffer ++ [v], pushed := s.pushed ++ [v] } i
    (.release .putMutex .lock) with hs'
  have hpc : s'.pc = update s.pc i (.release .putMutex .lock) := rfl
  have hheld := held_update hpc
  have hinside := inside_update hpc
  have hputs := puts_update hpc
  have htakes := takes_update hpc
  rw [hp] at hheld hinside hputs htakes
  simp only [Pc.holdsToken, Pc.inside, Pc.pushed, Pc.reserved, Bool.toNat_true, Bool.toNat_false, decide_true,
    true_or] at hheld hinside hputs htakes
  have htok := h.tokens
  have hmtx := h.mutex
  have hlen := h.length
  refine ⟨h.owned.stay (by rw [hp]; rfl), ?_, ?_, ?_, ?_, ?_, ?_⟩
  · change s.tokens .free + s.tokens .avail + _ = _
    omega
  · change s.tokens .mutex + _ = _
    omega
  · change (s.buffer ++ [v]).length = s.tokens .avail + _ + _
    rw [List.length_append, List.length_singleton]
    omega
  · refine front_update hpc (fun j w _ hj => ?_) nofun
    change (s.buffer ++ [v]).head? = some w
    rw [List.head?_append, h.front j w hj]
    rfl
  · change s.pushed ++ [v] = s.popped ++ (s.buffer ++ [v])
    rw [h.fifo, List.append_assoc]
  · intro k hs hpos
    refine notifier_update hpc (by rw [hp]; nofun) (h.awake k (sleeps_update hpc (by nofun) hs) hpos)

omit [DecidableEq ι] in
/-- A `Take` with a token finds an item. -/
theorem Inv.buffer_ne_nil (h : Inv capacity s) (hi : (s.pc i).reserved = true) : s.buffer ≠ [] := by
  intro hnil
  have hpos : 0 < s.takes := Threads.count_pos hi
  have hlen := h.length
  rw [hnil, List.length_nil] at hlen
  omega

omit [DecidableEq ι] in
/-- One at most is in the section of `mutex_sem_`. -/
theorem Inv.inside_unique (h : Inv capacity s) (i j : ι) (hi : (s.pc i).inside = true)
    (hj : (s.pc j).inside = true) : i = j := by
  have hmtx := h.mutex
  exact Threads.count_unique (show s.inside ≤ 1 by omega) hi hj

theorem Inv.popFront {v w : T} {b : List T} (h : Inv capacity s) (hp : s.pc i = .popFront v)
    (hb : s.buffer = w :: b) :
    Inv capacity ({ s with buffer := b, popped := s.popped ++ [v] }.setPc i
      (.release (.takeMutex v) .lock)) := by
  have hvw : w = v := by
    have hfront := h.front i v hp
    rw [hb] at hfront
    exact Option.some.inj hfront
  subst hvw
  set s' := State.setPc { s with buffer := b, popped := s.popped ++ [w] } i
    (.release (.takeMutex w) .lock) with hs'
  have hpc : s'.pc = update s.pc i (.release (.takeMutex w) .lock) := rfl
  have hheld := held_update hpc
  have hinside := inside_update hpc
  have hputs := puts_update hpc
  have htakes := takes_update hpc
  rw [hp] at hheld hinside hputs htakes
  simp only [Pc.holdsToken, Pc.inside, Pc.pushed, Pc.reserved, Bool.toNat_true, Bool.toNat_false, decide_true,
    true_or] at hheld hinside hputs htakes
  have htok := h.tokens
  have hmtx := h.mutex
  have hlen := h.length
  rw [hb, List.length_cons] at hlen
  refine ⟨h.owned.stay (by rw [hp]; rfl), ?_, ?_, ?_, ?_, ?_, ?_⟩
  · change s.tokens .free + s.tokens .avail + _ = _
    omega
  · change s.tokens .mutex + _ = _
    omega
  · change b.length = s.tokens .avail + _ + _
    omega
  · refine front_update hpc (fun j x hji hj => ?_) nofun
    exact absurd (h.inside_unique j i (by rw [hj]; rfl) (by rw [hp]; rfl)) hji
  · change s.pushed = (s.popped ++ [w]) ++ b
    rw [h.fifo, hb, List.append_assoc]
    rfl
  · intro k hs hpos
    refine notifier_update hpc (by rw [hp]; nofun) (h.awake k (sleeps_update hpc (by nofun) hs) hpos)

theorem Inv.threadStep (h : Inv capacity s) (hs : threadStep s i = some s') : Inv capacity s' := by
  unfold BoundedBlockingQueue.threadStep at hs
  split at hs
  · cases hs
  · next c p hp => exact h.acquireStep hp hs
  · next v hp =>
    cases hs
    exact h.pushBack hp
  · next hp =>
    split at hs
    · cases hs
    · next v b hb =>
      cases hs
      refine h.move rfl rfl rfl rfl rfl (h.owned.stay (by rw [hp]; rfl)) (by rw [hp]; rfl) ?_ nofun
        (by rw [hp]; nofun)
      rintro _ ⟨⟩
      rw [hb]
      rfl
  · next v hp =>
    split at hs
    · cases hs
    · next w b hb =>
      cases hs
      exact h.popFront hp hb
  · next c p hp => exact h.releaseStep hp hs

theorem Inv.step {a : Act T ι} (h : Inv capacity s) (hs : step s a = some s') : Inv capacity s' := by
  cases a with
  | put i v =>
    simp only [BoundedBlockingQueue.step] at hs
    split at hs
    · next hp =>
      cases hs
      exact h.move rfl rfl rfl rfl rfl (h.owned.stay (by rw [hp]; rfl)) (by rw [hp]; rfl) nofun nofun
        (by rw [hp]; nofun)
    · cases hs
  | take i =>
    simp only [BoundedBlockingQueue.step] at hs
    split at hs
    · next hp =>
      cases hs
      exact h.move rfl rfl rfl rfl rfl (h.owned.stay (by rw [hp]; rfl)) (by rw [hp]; rfl) nofun nofun
        (by rw [hp]; nofun)
    · cases hs
  | step i => exact h.threadStep hs
  | spurious i =>
    simp only [BoundedBlockingQueue.step] at hs
    split at hs
    · next c hp =>
      cases hs
      refine h.move rfl rfl rfl rfl rfl (h.owned.stay (by rw [hp]; rfl)) ?_ nofun nofun (by rw [hp]; nofun)
      rw [hp]
      cases c <;> rfl
    · cases hs

omit [DecidableEq ι] in
theorem inv_init : Inv capacity (init capacity : State T ι) := by
  have hzero : ∀ f : Pc T → Bool, f .idle = false →
      Threads.count (fun p => f p = true) (init capacity : State T ι).pc = 0 := by
    intro f hf
    refine Threads.count_eq_zero.2 fun j => ?_
    change ¬ f .idle = true
    rw [hf]
    nofun
  refine ⟨fun k j => iff_of_false nofun nofun, ?_, ?_, ?_, nofun, rfl, ?_⟩
  · rw [State.held, hzero _ rfl]
    rfl
  · rw [State.inside, hzero _ rfl]
    rfl
  · rw [State.puts, State.takes, hzero _ rfl, hzero _ rfl]
    rfl
  · rintro k ⟨j, c, hj, -⟩
    cases hj

theorem reach_inv (r : Reach (system T ι capacity) anyStep s) : Inv capacity s :=
  r.invariant (fun _ hs => hs ▸ inv_init) fun _ _ _ h _ hs => h.step hs

end step

/-! ### Main theorem -/

/-- In a call of `Take`. -/
def Pc.inTake : Pc T → Bool
  | .acquire .takeAvail _ | .acquire .takeMutex _ | .front | .popFront _ => true
  | .release (.takeMutex _) _ | .release (.takeFree _) _ => true
  | _ => false

/-- In a call of `Put`. -/
def Pc.inPut : Pc T → Bool
  | .acquire (.putFree _) _ | .acquire (.putMutex _) _ | .pushBack _ => true
  | .release .putMutex _ | .release .putAvail _ => true
  | _ => false

/-- No thread in a call can take a step: it sleeps and was not notified, or waits for a mutex. -/
def Blocked [DecidableEq ι] (s : State T ι) : Prop := ∀ i, s.pc i ≠ .idle → threadStep s i = none

section blocked

variable [DecidableEq ι] [Fintype ι] {capacity : Nat} {s : State T ι} {i : ι}

omit [Fintype ι] in
theorem step_of_locks {k : Sem} (h : (s.pc i).locks = some k) : threadStep s i ≠ none := by
  unfold threadStep
  cases hp : s.pc i with
  | acquire c p =>
    rw [hp] at h
    cases p with
    | take =>
      simp only [acquireStep]
      split <;> nofun
    | unlock => nofun
    | _ => cases h
  | release c p =>
    rw [hp] at h
    cases p with
    | lock => cases h
    | _ => nofun
  | _ =>
    rw [hp] at h
    cases h

/-- Nobody holds a `wait_mtx_`. -/
theorem Inv.owner_of_blocked (h : Inv capacity s) (hb : Blocked s) (k : Sem) : s.owner k = none := by
  cases ho : s.owner k with
  | none => rfl
  | some j =>
    have hj : (s.pc j).locks = some k := (h.owned k j).2 ho
    refine absurd (hb j ?_) (step_of_locks hj)
    intro hp
    rw [hp] at hj
    cases hj

/-- Everybody sleeps who is in a call. -/
theorem Inv.asleep_of_blocked (h : Inv capacity s) (hb : Blocked s) (i : ι) :
    s.pc i = .idle ∨ ∃ c, s.pc i = .acquire c .asleep := by
  have hfree := h.owner_of_blocked hb
  by_cases hidle : s.pc i = .idle
  · exact .inl hidle
  · have hno := hb i hidle
    have hbuf := h.buffer_ne_nil (i := i)
    unfold BoundedBlockingQueue.threadStep at hno
    cases hp : s.pc i with
    | idle => exact absurd hp hidle
    | acquire c p =>
      rw [hp] at hno
      cases p with
      | asleep => exact .inr ⟨c, rfl⟩
      | lock =>
        simp only [BoundedBlockingQueue.acquireStep] at hno
        rw [if_pos (hfree _)] at hno
        cases hno
      | take => exact absurd (hb i hidle) (step_of_locks (k := c.sem) (by rw [hp]; rfl))
      | unlock => cases hno
    | pushBack v =>
      rw [hp] at hno
      cases hno
    | front =>
      rw [hp] at hno hbuf
      obtain ⟨v, b, hvb⟩ := List.exists_cons_of_ne_nil (hbuf rfl)
      simp only [hvb] at hno
      cases hno
    | popFront v =>
      rw [hp] at hno hbuf
      obtain ⟨w, b, hvb⟩ := List.exists_cons_of_ne_nil (hbuf rfl)
      simp only [hvb] at hno
      cases hno
    | release c p =>
      rw [hp] at hno
      cases p with
      | lock =>
        simp only [BoundedBlockingQueue.releaseStep] at hno
        rw [if_pos (hfree _)] at hno
        cases hno
      | _ => cases hno

/-- A thread sleeps at a semaphore that is empty. -/
theorem Inv.empty_of_blocked (h : Inv capacity s) (hb : Blocked s) {c : Acquire T}
    (hi : s.pc i = .acquire c .asleep) : s.tokens c.sem = 0 := by
  by_contra hne
  obtain ⟨j, d, hj, -⟩ := h.awake c.sem ⟨i, c, hi, rfl⟩ (Nat.pos_of_ne_zero hne)
  rcases h.asleep_of_blocked hb j with hp | ⟨c', hp⟩
  · rw [hp] at hj
    cases hj
  · rw [hp] at hj
    cases hj

/-- `mutex_sem_` has its token, and nobody sleeps there: whoever is in a call waits for its first token. -/
theorem Inv.first_of_blocked (h : Inv capacity s) (hb : Blocked s) (i : ι) :
    s.pc i = .idle ∨ (∃ v, s.pc i = .acquire (.putFree v) .asleep) ∨ s.pc i = .acquire .takeAvail .asleep := by
  have hinside : s.inside = 0 := Threads.count_eq_zero.2 fun j => by
    rcases h.asleep_of_blocked hb j with hp | ⟨c, hp⟩
    · rw [hp]
      nofun
    · rw [hp]
      cases c <;> nofun
  have hmtx := h.mutex
  rcases h.asleep_of_blocked hb i with hp | ⟨c, hp⟩
  · exact .inl hp
  · have hempty := h.empty_of_blocked hb hp
    cases c with
    | putFree v => exact .inr (.inl ⟨v, hp⟩)
    | takeAvail => exact .inr (.inr hp)
    | putMutex v =>
      simp only [Acquire.sem] at hempty
      omega
    | takeMutex =>
      simp only [Acquire.sem] at hempty
      omega

theorem Inv.no_lost_wakeup (h : Inv capacity s) (hb : Blocked s) (i : ι) :
    ((s.pc i).inTake = true → s.buffer = []) ∧ ((s.pc i).inPut = true → s.buffer.length = capacity) := by
  have hzero : ∀ f : Pc T → Bool, f .idle = false → (∀ v, f (.acquire (.putFree v) .asleep) = false) →
      f (.acquire .takeAvail .asleep) = false → Threads.count (fun p => f p = true) s.pc = 0 := by
    intro f h1 h2 h3
    refine Threads.count_eq_zero.2 fun j => ?_
    rcases h.first_of_blocked hb j with hp | ⟨v, hp⟩ | hp
    · rw [hp, h1]
      nofun
    · rw [hp, h2 v]
      nofun
    · rw [hp, h3]
      nofun
  have hheld : s.held = 0 := hzero _ rfl (fun _ => rfl) rfl
  have hputs : s.puts = 0 := hzero _ rfl (fun _ => rfl) rfl
  have htakes : s.takes = 0 := hzero _ rfl (fun _ => rfl) rfl
  have htok := h.tokens
  have hlen := h.length
  rcases h.first_of_blocked hb i with hp | ⟨v, hp⟩ | hp
  · rw [hp]
    exact ⟨nofun, nofun⟩
  · have hempty : s.tokens .free = 0 := h.empty_of_blocked hb hp
    rw [hp]
    exact ⟨nofun, fun _ => by omega⟩
  · have hempty : s.tokens .avail = 0 := h.empty_of_blocked hb hp
    rw [hp]
    exact ⟨fun _ => List.length_eq_zero_iff.1 (by omega), nofun⟩

omit [DecidableEq ι] in
/-- An item has a token, in `avail_sem_` or in the hands of a call. -/
theorem Inv.length_le (h : Inv capacity s) : s.buffer.length ≤ capacity := by
  have hle : s.puts + s.takes ≤ s.held := by
    refine Threads.count_add_le (fun p hp => ?_) (fun p hp => ?_) (fun p hp => ?_)
    · cases p with
      | release c q => cases c <;> first | rfl | exact hp | cases hp
      | _ => cases hp
    · cases p with
      | acquire c q => cases c <;> first | rfl | exact hp | cases hp
      | release c q => cases hp
      | idle => cases hp
      | _ => rfl
    · cases p with
      | release c q => nofun
      | _ => cases hp
  have htok := h.tokens
  have hlen := h.length
  omega

/-- In every reachable state: at most `capacity` items; a `Take` that reads or removes the first one finds it;
the tokens add up; one thread at most is in the section of `mutex_sem_`; what was got is what was put, in
order, less what is in the buffer; and when all are blocked, no `Take` waits next to an item and no `Put` next
to a free slot. -/
theorem queue_correct (r : Reach (system T ι capacity) anyStep s) :
    s.buffer.length ≤ capacity ∧
      (∀ i, s.pc i = .front ∨ (∃ v, s.pc i = .popFront v) → s.buffer ≠ []) ∧
      s.tokens .free + s.tokens .avail + s.held = capacity ∧
      (∀ i j, (s.pc i).inside = true → (s.pc j).inside = true → i = j) ∧
      s.pushed = s.popped ++ s.buffer ∧
      (Blocked s → ∀ i, ((s.pc i).inTake = true → s.buffer = []) ∧
        ((s.pc i).inPut = true → s.buffer.length = capacity)) := by
  have h := reach_inv r
  refine ⟨h.length_le, ?_, h.tokens, h.inside_unique, h.fifo, h.no_lost_wakeup⟩
  rintro i (hp | ⟨v, hp⟩)
  · exact h.buffer_ne_nil (i := i) (by rw [hp]; rfl)
  · exact h.buffer_ne_nil (i := i) (by rw [hp]; rfl)

end blocked

/-- A queue of one slot: the second `Put` sleeps until the `Take` has made room. -/
theorem queue_correct_two : ∃ s : State Nat (Fin 3), (s.popped = [7] ∧ s.buffer = [8]) ∧
    s.pushed = s.popped ++ s.buffer ∧ s.buffer.length ≤ 1 := by
  obtain ⟨s, hr, hp⟩ := Reach.of_exec_any (system Nat (Fin 3) 1)
    ([Act.put 0 7, Act.put 1 8, Act.take 2] ++ List.replicate 3 (Act.step 0) ++ List.replicate 2 (Act.step 1) ++
      List.replicate 12 (Act.step 0) ++ List.replicate 16 (Act.step 2) ++ List.replicate 7 (Act.step 1))
    (fun s => s.popped = [7] ∧ s.buffer = [8]) (s := init 1) rfl (by decide)
  have h := queue_correct hr
  exact ⟨s, of_decide_eq_true hp, h.2.2.2.2.1, h.1⟩

end Cond.BoundedBlockingQueue
