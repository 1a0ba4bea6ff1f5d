import ConcurrencyCourse.Lib.Calls
import ConcurrencyCourse.Lib.Threads

/-!
# `UnboundedBlockingQueue` (tasks/tasks/thread-pool/tp/queue.hpp)

| here | there |
| --- | --- |
| `putLock`, `put`, `putUnlock`, `notifyOne` | `Put` (43-58) |
| `takeLock`, `take`, `asleep`, `takeUnlock` | `Take` (61-79) |
| `closeLock`, `close`, `closeUnlock`, `notifyAll` | `Close` (82-93) |

What a call does with `is_opened_` and `queue_` under the mutex is one step, at which the call takes effect: its
`event`. A wait releases the mutex and goes to sleep in one step; whoever is woken takes the mutex and tests again.
`takeLock true` and `take true` are a `Take` that was woken and has not tested yet.

An item that was put is announced once. While somebody sleeps, every item in the queue has an announcement that is
still on its way: a `Put` before its `notify_one`, or a `Take` that was woken (`Inv.announced`).

`puts_and_takes` is the main theorem.
-/

namespace UnboundedBlockingQueue

open Transition Function

inductive Pc (T : Type) where
  | idle
  | putLock (v : T)
  | put (v : T)
  | putUnlock (ok : Bool)
  | notifyOne
  | putDone (ok : Bool)
  | takeLock (woken : Bool)
  | take (woken : Bool)
  | asleep
  | takeUnlock (result : Option T)
  | takeDone (result : Option T)
  | closeLock
  | close
  | closeUnlock (notify : Bool)
  | notifyAll
  deriving DecidableEq, Repr

structure State (T ι : Type) where
  isOpened : Bool
  queue : List T
  /-- Who has locked `mtx_`. -/
  owner : Option ι
  pc : ι → Pc T

inductive Act (T ι : Type) where
  | put (i : ι) (v : T)
  | take (i : ι)
  | close (i : ι)
  /-- The next step; `sleeper` is whom `notify_one` wakes. -/
  | step (i : ι) (sleeper : Option ι)
  /-- The wait returns without a notification. -/
  | spurious (i : ι)

section model

variable {T ι : Type} [DecidableEq ι]

def State.setPc (s : State T ι) (i : ι) (p : Pc T) : State T ι := { s with pc := update s.pc i p }

def State.setOwner (s : State T ι) (o : Option ι) : State T ι := { s with owner := o }

/-- `lock_guard`, `unique_lock`. -/
def State.lock (s : State T ι) (i : ι) (p : Pc T) : Option (State T ι) :=
  if s.owner = none then some ((s.setOwner (some i)).setPc i p) else none

def Pc.isAsleep : Pc T → Bool
  | .asleep => true
  | _ => false

def Pc.woken : Pc T → Pc T
  | .asleep => .takeLock true
  | p => p

/-- `cv_.notify_all()`. -/
def State.wakeAll (s : State T ι) : State T ι := { s with pc := fun j => (s.pc j).woken }

/-- `cv_.notify_one()`. -/
def State.wakeOne [Fintype ι] (s : State T ι) : Option ι → Option (State T ι)
  | some j => if (s.pc j).isAsleep then some (s.setPc j (s.pc j).woken) else none
  | none => if ∀ j, (s.pc j).isAsleep = false then some s else none

/-- Under the mutex, in `Put`. -/
def State.push (s : State T ι) (i : ι) (v : T) : State T ι :=
  if s.isOpened then { s with queue := s.queue ++ [v] }.setPc i (.putUnlock true)
  else s.setPc i (.putUnlock false)

/-- Under the mutex, in `Take`: the test of the wait, and what comes after it. -/
def State.pop (s : State T ι) (i : ι) : State T ι :=
  match s.queue with
  | [] => if s.isOpened then (s.setOwner none).setPc i .asleep else s.setPc i (.takeUnlock none)
  | v :: queue => { s with queue := queue }.setPc i (.takeUnlock (some v))

variable [Fintype ι]

def threadStep (s : State T ι) (i : ι) (sleeper : Option ι) : Option (State T ι) :=
  match s.pc i with
  | .idle | .asleep => none
  | .putLock v => s.lock i (.put v)
  | .put v => some (s.push i v)
  | .putUnlock ok => some ((s.setOwner none).setPc i (if ok then .notifyOne else .putDone false))
  | .notifyOne => (s.wakeOne sleeper).map fun s' => s'.setPc i (.putDone true)
  | .putDone _ => some (s.setPc i .idle)
  | .takeLock woken => s.lock i (.take woken)
  | .take _ => some (s.pop i)
  | .takeUnlock result => some ((s.setOwner none).setPc i (.takeDone result))
  | .takeDone _ => some (s.setPc i .idle)
  | .closeLock => s.lock i .close
  | .close => some ({ s with isOpened := false }.setPc i (.closeUnlock s.isOpened))
  | .closeUnlock notify => some ((s.setOwner none).setPc i (if notify then .notifyAll else .idle))
  | .notifyAll => some (s.wakeAll.setPc i .idle)

def step (s : State T ι) : Act T ι → Option (State T ι)
  | .put i v => match s.pc i with
    | .idle => some (s.setPc i (.putLock v))
    | _ => none
  | .take i => match s.pc i with
    | .idle => some (s.setPc i (.takeLock false))
    | _ => none
  | .close i => match s.pc i with
    | .idle => some (s.setPc i .closeLock)
    | _ => none
  | .step i sleeper => threadStep s i sleeper
  | .spurious i => match s.pc i with
    | .asleep => some (s.setPc i (.takeLock true))
    | _ => none

def init : State T ι := ⟨true, [], none, fun _ => .idle⟩

variable (T ι) in
def system : System (State T ι) (Act T ι) := ⟨fun s => s = init, step⟩

end model

/-! ### Calls and their effects -/

section calls

variable {T ι : Type}

def State.contents (s : State T ι) : Closable.Contents T := ⟨s.isOpened, s.queue⟩

def event (s : State T ι) : Act T ι → Option (ι × Closable.Event T)
  | .step i _ => match s.pc i with
    | .put v => some (i, .put v s.isOpened)
    | .take _ => match s.queue with
      | [] => if s.isOpened then none else some (i, .drained)
      | v :: _ => some (i, .take v)
    | .close => some (i, .close)
    | _ => none
  | _ => none

variable [DecidableEq ι]

def begins (i : ι) : Act T ι → Bool
  | .put j _ | .take j | .close j => decide (j = i)
  | _ => false

def calls : Calls (State T ι) (Act T ι) ι (Closable.Event T) := ⟨begins, event⟩

/-- The event of a `Take` that returns `result`. -/
def taken : Option T → Closable.Event T
  | some v => .take v
  | none => .drained

/-- What the current call of thread `i` has done so far. -/
def CallOk (i : ι) (h : History (State T ι) (Act T ι)) : Pc T → Prop
  | .putLock v | .put v => calls.last i h = some (.put i v) ∧ calls.events i h = []
  | .putUnlock ok | .putDone ok => ∃ v, calls.last i h = some (.put i v) ∧ calls.events i h = [.put v ok]
  | .notifyOne => ∃ v, calls.last i h = some (.put i v) ∧ calls.events i h = [.put v true]
  | .takeLock _ | .take _ | .asleep => calls.last i h = some (.take i) ∧ calls.events i h = []
  | .takeUnlock result | .takeDone result =>
    calls.last i h = some (.take i) ∧ calls.events i h = [taken result]
  | .idle | .closeLock | .close | .closeUnlock _ | .notifyAll => True

end calls

/-! ### Wakeups -/

/-- A `Put` before its `notify_one`, or a `Take` that was woken and has not tested yet. -/
def Pc.announces {T : Type} : Pc T → Bool
  | .putUnlock ok => ok
  | .notifyOne => true
  | .takeLock woken | .take woken => woken
  | _ => false

/-- A `Close` before its `notify_all`. -/
def Pc.closes {T : Type} : Pc T → Bool
  | .closeUnlock notify => notify
  | .notifyAll => true
  | _ => false

section invariant

variable {T ι : Type}

def State.sleeps (s : State T ι) : Prop := ∃ i, (s.pc i).isAsleep = true

def State.announced [Fintype ι] (s : State T ι) : Nat := Threads.count (fun p => p.announces = true) s.pc

structure Inv [Fintype ι] (s : State T ι) : Prop where
  announced : s.sleeps → s.queue.length ≤ s.announced
  closed : s.sleeps → s.isOpened = false → ∃ i, (s.pc i).closes = true

end invariant

section steps

variable {T ι : Type} [DecidableEq ι] [Fintype ι] {s s' : State T ι} {i : ι} {q : Pc T}

omit [DecidableEq ι] in
/-- Without sleepers there is nothing to show. -/
theorem Inv.of_awake (h : ¬ s.sleeps) : Inv s := ⟨fun hs => absurd hs h, fun hs => absurd hs h⟩

omit [Fintype ι] in
theorem sleeps_update (hpc : s'.pc = update s.pc i q) (hq : q.isAsleep = false) (h : s'.sleeps) : s.sleeps := by
  obtain ⟨j, hj⟩ := h
  rw [hpc] at hj
  rcases eq_or_ne j i with rfl | hji
  · rw [update_self, hq] at hj
    cases hj
  · rw [update_of_ne hji] at hj
    exact ⟨j, hj⟩

omit [Fintype ι] in
theorem closes_update (hpc : s'.pc = update s.pc i q) (hq : (s.pc i).closes = true → q.closes = true)
    (h : ∃ j, (s.pc j).closes = true) : ∃ j, (s'.pc j).closes = true := by
  obtain ⟨j, hj⟩ := h
  refine ⟨j, ?_⟩
  rw [hpc]
  rcases eq_or_ne j i with rfl | hji
  · rw [update_self]
    exact hq hj
  · rwa [update_of_ne hji]

theorem announced_update (hpc : s'.pc = update s.pc i q) :
    s'.announced + (s.pc i).announces.toNat = s.announced + q.announces.toNat := by
  unfold State.announced
  rw [hpc]
  exact Threads.count_toNat _

/-- A step that leaves `queue_` and `is_opened_` alone, or takes an item. -/
theorem Inv.move (hi : Inv s) (hpc : s'.pc = update s.pc i q) (hopened : s'.isOpened = s.isOpened)
    (hq : q.isAsleep = false)
    (hlen : s'.queue = [] ∨ s'.queue.length + (s.pc i).announces.toNat ≤ s.queue.length + q.announces.toNat)
    (hcloses : (s.pc i).closes = true → q.closes = true) : Inv s' where
  announced hs := by
    have h1 := hi.announced (sleeps_update hpc hq hs)
    have h2 := announced_update hpc
    rcases hlen with hlen | hlen
    · rw [hlen]
      exact Nat.zero_le _
    · omega
  closed hs hc := by
    rw [hopened] at hc
    exact closes_update hpc hcloses (hi.closed (sleeps_update hpc hq hs) hc)

/-- `is_opened_ = false`. -/
theorem Inv.close (hi : Inv s) (hpc : s.pc i = .close) :
    Inv ({ s with isOpened := false }.setPc i (.closeUnlock s.isOpened)) := by
  generalize hs' : ({ s with isOpened := false }.setPc i (.closeUnlock s.isOpened) : State T ι) = s'
  have hupd : s'.pc = update s.pc i (.closeUnlock s.isOpened) := by rw [← hs']; rfl
  have hqueue : s'.queue = s.queue := by rw [← hs']; rfl
  refine ⟨fun hs => ?_, fun hs _ => ?_⟩
  · have h1 := hi.announced (sleeps_update hupd rfl hs)
    have h2 := announced_update hupd
    rw [hpc] at h2
    rw [hqueue]
    simp only [Pc.announces, Bool.toNat_false] at h2
    omega
  · cases hopened : s.isOpened with
    | true =>
      refine ⟨i, ?_⟩
      rw [hupd, update_self, hopened]
      rfl
    | false =>
      refine closes_update hupd (fun h => ?_) (hi.closed (sleeps_update hupd rfl hs) hopened)
      rw [hpc] at h
      cases h

/-- A `Take` that goes to sleep has found the queue open and empty. -/
theorem Inv.sleep (hqueue : s.queue = []) (hopened : s.isOpened = true) :
    Inv ((s.setOwner none).setPc i .asleep) := by
  refine ⟨fun _ => ?_, fun _ hc => ?_⟩
  · change s.queue.length ≤ _
    rw [hqueue]
    exact Nat.zero_le _
  · change s.isOpened = false at hc
    rw [hopened] at hc
    cases hc

theorem Inv.notifyOne {j : ι} (hi : Inv s) (hpc : s.pc i = .notifyOne) (hj : (s.pc j).isAsleep = true) :
    Inv ((s.setPc j (s.pc j).woken).setPc i (.putDone true)) := by
  have hasleep : s.pc j = .asleep := by
    generalize s.pc j = p at hj
    cases p with
    | asleep => rfl
    | _ => cases hj
  have hij : i ≠ j := by
    rintro rfl
    rw [hpc] at hasleep
    cases hasleep
  rw [hasleep, Pc.woken]
  have h1 : Inv (s.setPc j (.takeLock true)) :=
    hi.move rfl rfl rfl (.inr (by rw [hasleep]; exact Nat.le_succ _)) (by rw [hasleep]; nofun)
  have hi1 : (s.setPc j (.takeLock true)).pc i = .notifyOne := (update_of_ne hij ..).trans hpc
  have ha : (s.setPc j (.takeLock true)).announced + (s.pc j).announces.toNat =
      s.announced + (Pc.takeLock true : Pc T).announces.toNat := announced_update rfl
  have hb : ((s.setPc j (.takeLock true)).setPc i (.putDone true)).announced +
      ((s.setPc j (.takeLock true)).pc i).announces.toNat =
      (s.setPc j (.takeLock true)).announced + (Pc.putDone true : Pc T).announces.toNat := announced_update rfl
  rw [hasleep] at ha
  rw [hi1] at hb
  simp only [Pc.announces, Bool.toNat_false, Bool.toNat_true] at ha hb
  refine ⟨fun hs => ?_, fun hs hc => ?_⟩
  · have h2 := hi.announced (sleeps_update rfl rfl (sleeps_update rfl rfl hs))
    change s.queue.length ≤ _
    omega
  · refine closes_update rfl (fun h => ?_) (h1.closed (sleeps_update rfl rfl hs) hc)
    rw [hi1] at h
    cases h

omit [DecidableEq ι] [Fintype ι] in
theorem woken_awake (p : Pc T) : p.woken.isAsleep = false := by
  cases p <;> rfl

theorem Inv.lock (hi : Inv s) (hq : q.isAsleep = false) (hann : q.announces = (s.pc i).announces)
    (hcloses : (s.pc i).closes = true → q.closes = true) (hs : s.lock i q = some s') : Inv s' := by
  unfold State.lock at hs
  split at hs
  · obtain rfl := Option.some.inj hs
    exact hi.move rfl rfl hq (.inr (by rw [hann]; exact le_rfl)) hcloses
  · cases hs

theorem Inv.thread {sleeper : Option ι} (hi : Inv s) (hs : threadStep s i sleeper = some s') : Inv s' := by
  unfold threadStep at hs
  split at hs
  · cases hs
  · cases hs
  · next v hpc => exact hi.lock rfl (by rw [hpc]; rfl) (by rw [hpc]; nofun) hs
  · next v hpc =>
    obtain rfl := Option.some.inj hs
    unfold State.push
    split
    · refine hi.move (q := .putUnlock true) rfl rfl rfl (.inr ?_) (by rw [hpc]; nofun)
      change (s.queue ++ [v]).length + _ ≤ _
      rw [hpc, List.length_append]
      exact le_rfl
    · exact hi.move rfl rfl rfl (.inr (by rw [hpc]; exact le_rfl)) (by rw [hpc]; nofun)
  · next ok hpc =>
    obtain rfl := Option.some.inj hs
    cases ok with
    | true => exact hi.move (q := .notifyOne) rfl rfl rfl (.inr (by rw [hpc]; exact le_rfl)) (by rw [hpc]; nofun)
    | false => exact hi.move (q := .putDone false) rfl rfl rfl (.inr (by rw [hpc]; exact le_rfl)) (by rw [hpc]; nofun)
  · next hpc =>
    obtain ⟨s₁, hw, rfl⟩ := Option.map_eq_some_iff.1 hs
    unfold State.wakeOne at hw
    split at hw
    · next j =>
      split at hw
      · next hj =>
        obtain rfl := Option.some.inj hw
        exact hi.notifyOne hpc hj
      · cases hw
    · split at hw
      · next hno =>
        obtain rfl := Option.some.inj hw
        refine .of_awake fun h => ?_
        obtain ⟨j, hj⟩ := sleeps_update (s := s) (q := .putDone true) rfl rfl h
        rw [hno j] at hj
        cases hj
      · cases hw
  · next hpc =>
    obtain rfl := Option.some.inj hs
    exact hi.move rfl rfl rfl (.inr (by rw [hpc]; exact le_rfl)) (by rw [hpc]; nofun)
  · next woken hpc => exact hi.lock rfl (by rw [hpc]; rfl) (by rw [hpc]; nofun) hs
  · next woken hpc =>
    obtain rfl := Option.some.inj hs
    unfold State.pop
    split
    · next hqueue =>
      split
      · next hopened => exact .sleep hqueue hopened
      · exact hi.move (q := .takeUnlock none) rfl rfl rfl (.inl hqueue) (by rw [hpc]; nofun)
    · next v queue hqueue =>
      refine hi.move (q := .takeUnlock (some v)) rfl rfl rfl (.inr ?_) (by rw [hpc]; nofun)
      change queue.length + _ ≤ _
      rw [hpc, hqueue]
      cases woken <;> simp [Pc.announces]
  · next result hpc =>
    obtain rfl := Option.some.inj hs
    exact hi.move rfl rfl rfl (.inr (by rw [hpc]; exact le_rfl)) (by rw [hpc]; nofun)
  · next result hpc =>
    obtain rfl := Option.some.inj hs
    exact hi.move rfl rfl rfl (.inr (by rw [hpc]; exact le_rfl)) (by rw [hpc]; nofun)
  · next hpc => exact hi.lock rfl (by rw [hpc]; rfl) (by rw [hpc]; nofun) hs
  · next hpc =>
    obtain rfl := Option.some.inj hs
    exact hi.close hpc
  · next notify hpc =>
    obtain rfl := Option.some.inj hs
    cases notify with
    | true => exact hi.move (q := .notifyAll) rfl rfl rfl (.inr (by rw [hpc]; exact le_rfl)) fun _ => rfl
    | false => exact hi.move (q := .idle) rfl rfl rfl (.inr (by rw [hpc]; exact le_rfl)) (by rw [hpc]; nofun)
  · next hpc =>
    obtain rfl := Option.some.inj hs
    refine .of_awake fun h => ?_
    obtain ⟨j, hj⟩ := sleeps_update (s := s.wakeAll) (q := .idle) rfl rfl h
    rw [show (s.wakeAll.pc j).isAsleep = false from woken_awake _] at hj
    cases hj

theorem Inv.step {a : Act T ι} (hi : Inv s) (hs : step s a = some s') : Inv s' := by
  cases a with
  | put i v | take i | close i =>
    simp only [UnboundedBlockingQueue.step] at hs
    split at hs
    · next hpc =>
      obtain rfl := Option.some.inj hs
      exact hi.move rfl rfl rfl (.inr (by rw [hpc]; exact le_rfl)) (by rw [hpc]; nofun)
    · cases hs
  | step i sleeper => exact hi.thread hs
  | spurious i =>
    simp only [UnboundedBlockingQueue.step] at hs
    split at hs
    · next hpc =>
      obtain rfl := Option.some.inj hs
      exact hi.move rfl rfl rfl (.inr (by rw [hpc]; exact Nat.le_succ _)) (by rw [hpc]; nofun)
    · cases hs

/-! ### What a step does to the queue, and to the calls -/

/-- The thread that takes the step. -/
def Act.thread : Act T ι → ι
  | .put i _ | .take i | .close i | .step i _ | .spurious i => i

omit [Fintype ι] in
theorem lock_contents (hs : s.lock i q = some s') : s'.contents = s.contents := by
  unfold State.lock at hs
  split at hs
  · obtain rfl := Option.some.inj hs
    rfl
  · cases hs

theorem wakeOne_contents {sleeper : Option ι} (hs : s.wakeOne sleeper = some s') : s'.contents = s.contents := by
  unfold State.wakeOne at hs
  split at hs <;> split at hs <;> cases hs <;> rfl

/-- Every step does to the queue what its event says. -/
theorem applies_step {a : Act T ι} (hs : step s a = some s') :
    Applies Closable.spec (event s a) s.contents s'.contents := by
  cases a with
  | put i v | take i | close i | spurious i =>
    simp only [step] at hs
    split at hs <;> cases hs
    rfl
  | step i sleeper =>
    simp only [step, threadStep] at hs
    simp only [event]
    cases hpc : s.pc i <;> rw [hpc] at hs <;> simp only at hs ⊢
    case idle | asleep => cases hs
    case putLock | takeLock | closeLock => exact lock_contents hs
    case putUnlock | putDone | takeUnlock | takeDone | closeUnlock | notifyAll =>
      obtain rfl := Option.some.inj hs
      rfl
    case notifyOne =>
      obtain ⟨s₁, hw, rfl⟩ := Option.map_eq_some_iff.1 hs
      exact (wakeOne_contents hw :)
    case put v =>
      obtain rfl := Option.some.inj hs
      unfold State.push
      cases hopened : s.isOpened with
      | true => exact ⟨hopened, by rw [if_pos rfl]; simp [State.contents, State.setPc, hopened]⟩
      | false => exact ⟨hopened, rfl⟩
    case take woken =>
      obtain rfl := Option.some.inj hs
      unfold State.pop
      cases hqueue : s.queue with
      | nil =>
        cases hopened : s.isOpened with
        | true => rfl
        | false => exact ⟨by rw [State.contents, hopened, hqueue], rfl⟩
      | cons v queue => exact ⟨hqueue, rfl⟩
    case close =>
      obtain rfl := Option.some.inj hs
      rfl

/-- Another thread is where it was, or was woken. -/
theorem step_others {a : Act T ι} (hs : step s a = some s') {u : ι} (hu : u ≠ a.thread) :
    s'.pc u = s.pc u ∨ s.pc u = .asleep ∧ s'.pc u = .takeLock true := by
  have hlock : ∀ {i : ι} {q : Pc T}, u ≠ i → s.lock i q = some s' → s'.pc u = s.pc u := by
    intro i q hui hs
    unfold State.lock at hs
    split at hs
    · obtain rfl := Option.some.inj hs
      exact update_of_ne hui ..
    · cases hs
  have hwoken : ∀ p : Pc T, p.woken = p ∨ p = .asleep ∧ p.woken = .takeLock true := by
    intro p
    cases p <;> first | exact .inl rfl | exact .inr ⟨rfl, rfl⟩
  cases a with
  | put i v | take i | close i | spurious i =>
    simp only [step] at hs
    split at hs <;> cases hs
    exact .inl (update_of_ne hu ..)
  | step i sleeper =>
    simp only [step, threadStep] at hs
    split at hs
    case h_1 | h_2 => cases hs
    case h_3 | h_8 | h_12 => exact .inl (hlock hu hs)
    case h_4 =>
      obtain rfl := Option.some.inj hs
      unfold State.push
      split <;> exact .inl (update_of_ne hu ..)
    case h_6 =>
      obtain ⟨s₁, hw, rfl⟩ := Option.map_eq_some_iff.1 hs
      rw [show (s₁.setPc i (.putDone true)).pc u = s₁.pc u from update_of_ne hu ..]
      unfold State.wakeOne at hw
      split at hw
      · next j =>
        split at hw
        · obtain rfl := Option.some.inj hw
          rcases eq_or_ne u j with rfl | huj
          · rw [show (s.setPc u (s.pc u).woken).pc u = (s.pc u).woken from update_self ..]
            exact hwoken _
          · exact .inl (update_of_ne huj ..)
        · cases hw
      · split at hw
        · obtain rfl := Option.some.inj hw
          exact .inl rfl
        · cases hw
    case h_9 =>
      obtain rfl := Option.some.inj hs
      unfold State.pop
      split
      · split <;> exact .inl (update_of_ne hu ..)
      · exact .inl (update_of_ne hu ..)
    case h_15 =>
      obtain rfl := Option.some.inj hs
      rw [show (s.wakeAll.setPc i .idle).pc u = (s.pc u).woken from update_of_ne hu ..]
      exact hwoken _
    all_goals
      obtain rfl := Option.some.inj hs
      exact .inl (update_of_ne hu ..)

variable {h : History (State T ι) (Act T ι)}

omit [Fintype ι] in
theorem CallOk.congr {h' : History (State T ι) (Act T ι)} {p : Pc T} (hc : CallOk i h p)
    (hl : calls.last i h' = calls.last i h) (he : calls.events i h' = calls.events i h) : CallOk i h' p := by
  cases p <;> simp only [CallOk, hl, he] <;> exact hc

/-- A step of another thread. -/
theorem CallOk.later {a : Act T ι} {u : ι} (hc : CallOk u h (s.pc u)) (hs : UnboundedBlockingQueue.step s a = some s')
    (hu : u ≠ a.thread) : CallOk u ((a, s) :: h) (s'.pc u) := by
  have hb : calls.begins u a = false := by
    cases a with
    | put i v | take i | close i => exact decide_eq_false (Ne.symm hu)
    | _ => rfl
  have he : ∀ e, event s a ≠ some (u, e) := by
    intro e heq
    apply hu
    unfold event at heq
    split at heq
    · split at heq
      · cases heq
        rfl
      · split at heq
        · split at heq <;> cases heq
          rfl
        · cases heq
          rfl
      · cases heq
        rfl
      · cases heq
    · cases heq
  have hl : calls.last u ((a, s) :: h) = calls.last u h := Calls.last_later hb
  have hev : calls.events u ((a, s) :: h) = calls.events u h := Calls.events_later hb he
  rcases step_others hs hu with heq | ⟨hasleep, hwoken⟩
  · rw [heq]
    exact hc.congr hl hev
  · rw [hwoken]
    rw [hasleep] at hc
    exact CallOk.congr (p := .takeLock true) hc hl hev

/-- The step of the thread itself. -/
theorem CallOk.thread {sleeper : Option ι} (hc : CallOk i h (s.pc i)) (hs : threadStep s i sleeper = some s') :
    CallOk i ((.step i sleeper, s) :: h) (s'.pc i) := by
  have hb : calls.begins i (.step i sleeper : Act T ι) = false := rfl
  have hl : calls.last i ((.step i sleeper, s) :: h) = calls.last i h := Calls.last_later hb
  have hsome : ∀ e, event s (.step i sleeper) = some (i, e) →
      calls.events i ((.step i sleeper, s) :: h) = e :: calls.events i h := fun e he => Calls.events_some hb he
  have hnone : event s (.step i sleeper) = none →
      calls.events i ((.step i sleeper, s) :: h) = calls.events i h :=
    fun he => Calls.events_later hb fun e heq => by cases he.symm.trans heq
  have hself : ∀ (r : State T ι) (p : Pc T), (r.setPc i p).pc i = p := fun r p => update_self ..
  have hlock : ∀ {q : Pc T}, s.lock i q = some s' → s'.pc i = q := by
    intro q hs
    unfold State.lock at hs
    split at hs
    · obtain rfl := Option.some.inj hs
      exact hself _ _
    · cases hs
  simp only [event] at hsome hnone
  unfold threadStep at hs
  cases hpc : s.pc i <;> rw [hpc] at hs hc hsome hnone <;> simp only at hs hsome hnone
  case idle | asleep => cases hs
  case putLock v | takeLock woken =>
    rw [hlock hs]
    exact ⟨hl.trans hc.1, (hnone trivial).trans hc.2⟩
  case closeLock =>
    rw [hlock hs]
    trivial
  case put v =>
    obtain rfl := Option.some.inj hs
    unfold State.push
    have hev := hsome _ rfl
    rw [hc.2] at hev
    cases hopened : s.isOpened with
    | true =>
      rw [if_pos rfl, hself]
      exact ⟨v, hl.trans hc.1, by rw [hev, hopened]⟩
    | false =>
      rw [if_neg (by rintro ⟨⟩), hself]
      exact ⟨v, hl.trans hc.1, by rw [hev, hopened]⟩
  case putUnlock ok =>
    obtain rfl := Option.some.inj hs
    rw [hself]
    obtain ⟨v, h1, h2⟩ := hc
    cases ok <;> exact ⟨v, hl.trans h1, (hnone trivial).trans h2⟩
  case notifyOne =>
    obtain ⟨s₁, -, rfl⟩ := Option.map_eq_some_iff.1 hs
    rw [hself]
    obtain ⟨v, h1, h2⟩ := hc
    exact ⟨v, hl.trans h1, (hnone trivial).trans h2⟩
  case putDone | takeDone | notifyAll =>
    obtain rfl := Option.some.inj hs
    rw [hself]
    trivial
  case take woken =>
    obtain rfl := Option.some.inj hs
    unfold State.pop
    cases hqueue : s.queue with
    | nil =>
      rw [hqueue] at hsome hnone
      cases hopened : s.isOpened with
      | true =>
        rw [hopened] at hnone
        simp only [if_true, hself]
        exact ⟨hl.trans hc.1, (hnone rfl).trans hc.2⟩
      | false =>
        rw [hopened] at hsome
        simp only [Bool.false_eq_true, if_false, hself]
        exact ⟨hl.trans hc.1, by rw [hsome _ rfl, hc.2]; rfl⟩
    | cons v queue =>
      rw [hqueue] at hsome
      simp only [hself]
      exact ⟨hl.trans hc.1, by rw [hsome _ rfl, hc.2]; rfl⟩
  case takeUnlock result =>
    obtain rfl := Option.some.inj hs
    rw [hself]
    exact ⟨hl.trans hc.1, (hnone trivial).trans hc.2⟩
  case close =>
    obtain rfl := Option.some.inj hs
    rw [hself]
    trivial
  case closeUnlock notify =>
    obtain rfl := Option.some.inj hs
    rw [hself]
    cases notify <;> trivial

theorem CallOk.step {a : Act T ι} (hc : ∀ u, CallOk u h (s.pc u))
    (hs : UnboundedBlockingQueue.step s a = some s') (u : ι) : CallOk u ((a, s) :: h) (s'.pc u) := by
  rcases eq_or_ne u a.thread with rfl | hu
  · have hself : ∀ (i : ι) (p : Pc T), (s.setPc i p).pc i = p := fun i p => update_self ..
    cases a with
    | step i sleeper => exact (hc i).thread hs
    | spurious i =>
      simp only [UnboundedBlockingQueue.step] at hs
      split at hs
      · next hpc =>
        obtain rfl := Option.some.inj hs
        have h0 := hc i
        rw [hpc] at h0
        rw [Act.thread, hself]
        exact CallOk.congr (p := .takeLock true) h0 (Calls.last_later rfl) (Calls.events_later rfl nofun)
      · cases hs
    | put i v =>
      have hb : calls.begins i (.put i v : Act T ι) = true := decide_eq_true rfl
      simp only [UnboundedBlockingQueue.step] at hs
      split at hs <;> cases hs
      rw [Act.thread, hself]
      exact ⟨Calls.last_begins hb, Calls.events_begins hb⟩
    | take i =>
      have hb : calls.begins i (.take i : Act T ι) = true := decide_eq_true rfl
      simp only [UnboundedBlockingQueue.step] at hs
      split at hs <;> cases hs
      rw [Act.thread, hself]
      exact ⟨Calls.last_begins hb, Calls.events_begins hb⟩
    | close i =>
      simp only [UnboundedBlockingQueue.step] at hs
      split at hs <;> cases hs
      rw [Act.thread, hself]
      trivial
  · exact (hc u).later hs hu

end steps

section main

variable {T ι : Type} [DecidableEq ι] [Fintype ι]

/-- The queue after a run: every call has its effect in one step, and answers accordingly (`Put` is accepted if and
only if the queue was open at that step, `Take` gets the front, or nothing from a closed and empty queue); what was
taken is what was put, in that order; once a `Take` has found nothing, all that was put has been taken; and while there
is an item or the queue is closed, nobody sleeps without a wakeup on its way. -/
structure Correct (h : History (State T ι) (Act T ι)) (s : State T ι) : Prop where
  effects : Path Closable.spec ⟨true, []⟩ (calls.all h) s.contents
  next : ∀ a s', step s a = some s' → Applies Closable.spec (event s a) s.contents s'.contents
  put : ∀ i ok, s.pc i = .putDone ok → ∃ v, calls.last i h = some (.put i v) ∧ calls.events i h = [.put v ok]
  take : ∀ i result, s.pc i = .takeDone result →
    calls.last i h = some (.take i) ∧ calls.events i h = [taken result]
  fifo : Closable.accepted (calls.all h) = Closable.taken (calls.all h) ++ s.queue
  delivered : .drained ∈ calls.all h → Closable.accepted (calls.all h) = Closable.taken (calls.all h)
  served : ∀ i woken v queue, s.pc i = .take woken → s.queue = v :: queue →
    ∀ sleeper, event s (.step i sleeper) = some (i, .take v)
  awake : s.sleeps → s.queue ≠ [] ∨ s.isOpened = false →
    (∃ i, (s.pc i).announces = true) ∨ ∃ i, (s.pc i).closes = true

/-- In every run, with any number of threads. -/
theorem puts_and_takes {h : History (State T ι) (Act T ι)} {s : State T ι} (r : Run (system T ι) anyStep h s) :
    Correct h s := by
  have hi : Inv s ∧ ∀ i, CallOk i h (s.pc i) := by
    refine r.invariant (I := fun h s => Inv s ∧ ∀ i, CallOk i h (s.pc i)) (fun _ hs => ?_) fun _ _ _ _ hi _ hs =>
      ⟨hi.1.step hs, CallOk.step hi.2 hs⟩
    obtain rfl : _ = init := hs
    exact ⟨.of_awake fun ⟨_, h⟩ => (nomatch h), fun _ => trivial⟩
  have hpath : Path Closable.spec ⟨true, []⟩ (calls.all h) s.contents :=
    calls.refines State.contents (fun _ hs => hs ▸ rfl) (fun _ _ _ _ _ _ hs => applies_step hs) r
  refine ⟨hpath, fun _ _ hs => applies_step hs, fun i ok hpc => ?_, fun i result hpc => ?_, Closable.fifo hpath,
    fun hd => ?_, fun i woken v queue hpc hq _ => ?_, fun hs hne => ?_⟩
  · have hc := hi.2 i
    rwa [hpc] at hc
  · have hc := hi.2 i
    rwa [hpc] at hc
  · have hfifo := Closable.fifo hpath
    rw [Closable.drained hpath hd, List.append_nil] at hfifo
    exact hfifo
  · simp only [event, hpc, hq]
  · rcases hne with hne | hclosed
    · have hle := hi.1.announced hs
      have hpos := List.length_pos_iff.2 hne
      by_contra hno
      have hzero : s.announced = 0 := Threads.count_eq_zero.2 fun i hi => hno (.inl ⟨i, hi⟩)
      omega
    · exact .inr (hi.1.closed hs hclosed)

/-- Thread 0 sleeps in `Take`; thread 1 puts 5, and its notification wakes thread 0, but thread 2 takes the item
first; then thread 1 closes the queue, and thread 0 gets nothing. -/
def overtaken : List (Act Nat (Fin 3)) :=
  [.take 0, .step 0 none, .step 0 none, .put 1 5, .step 1 none, .step 1 none, .step 1 none, .step 1 (some 0), .step 1 none,
    .take 2, .step 2 none, .step 2 none, .step 2 none, .step 0 none, .step 0 none, .close 1, .step 1 none, .step 1 none,
    .step 1 none, .step 1 none, .step 0 none, .step 0 none, .step 0 none]

theorem puts_and_takes_overtaken : ∃ h, ∃ s : State Nat (Fin 3), Run (system Nat (Fin 3)) anyStep h s ∧
    (s.pc 0 = .takeDone none ∧ s.pc 2 = .takeDone (some 5)) ∧ Correct h s := by
  obtain ⟨s, ⟨h, r⟩, hp⟩ := Reach.of_exec_any (system Nat (Fin 3)) overtaken
    (fun s => decide (s.pc 0 = .takeDone none ∧ s.pc 2 = .takeDone (some 5))) (s := init) rfl (by decide)
  exact ⟨h, s, r, of_decide_eq_true hp, puts_and_takes r⟩

end main

end UnboundedBlockingQueue
