import ConcurrencyCourse.Lib.Threads
import ConcurrencyCourse.Lib.Transition

/-!
# `TicketLock` with `TryLock` (tasks/mutex/try-lock/ticket_lock.hpp)

| here | there |
| --- | --- |
| `nextFree`, `owner` | `next_free_ticket_`, `owner_ticket_` (41-42); they do not wrap here, in infinite runs neither |
| `.lock`, `.spin` | `Lock` (14-21) |
| `.tryLoad`, `.tryCas` | `TryLock` (23-26) |
| `.unlock` | `Unlock` (37-40) |

The tickets that were drawn and not served yet are `owner ≤ k < nextFree`, and each of them is in the hands of one
thread (`Inv.drawn`). `TryLock` compares `next_free_ticket_` with an older value of `owner_ticket_`: neither counter
goes back, so when they are equal the lock is free (`Inv.tryCas`), and when they are not, somebody has drawn a ticket
that was not served, at the load or since then.

`ticketLock_correct` is the main theorem.
-/

namespace Mutex.TicketLock

open Transition Function

inductive Pc where
  | idle
  -- `next_free_ticket_.fetch_add(1)`, `owner_ticket_.load()`
  | lock
  | spin (ticket : Nat)
  -- `owner_ticket_.load()`, `next_free_ticket_.compare_exchange_strong`
  | tryLoad
  | tryCas (ownerTicket : Nat)
  -- `TryLock` has returned `false`
  | failed
  | holding (ticket : Nat)
  -- `owner_ticket_.fetch_add(1)`
  | unlock (ticket : Nat)
  deriving DecidableEq, Repr

structure State (ι : Type) where
  nextFree : Nat
  owner : Nat
  pc : ι → Pc
  /-- The tickets drawn, oldest first. -/
  issued : List Nat
  /-- The tickets with which the lock was acquired, oldest first. -/
  acquired : List Nat

inductive Act (ι : Type) where
  | lock (i : ι)
  | tryLock (i : ι)
  | unlock (i : ι)
  | step (i : ι)

section model

variable {ι : Type} [DecidableEq ι]

def State.setPc (s : State ι) (i : ι) (p : Pc) : State ι := { s with pc := update s.pc i p }

/-- The next ticket is drawn. -/
def State.draw (s : State ι) : State ι := { s with nextFree := s.nextFree + 1, issued := s.issued ++ [s.nextFree] }

def State.acquire (s : State ι) (i : ι) (k : Nat) : State ι :=
  { s with acquired := s.acquired ++ [k] }.setPc i (.holding k)

def threadStep (s : State ι) (i : ι) : Option (State ι) :=
  match s.pc i with
  | .idle | .holding _ => none
  | .lock => some (s.draw.setPc i (.spin s.nextFree))
  | .spin k => some (if s.owner = k then s.acquire i k else s)
  | .tryLoad => some (s.setPc i (.tryCas s.owner))
  | .tryCas k => some (if s.nextFree = k then s.draw.acquire i k else s.setPc i .failed)
  | .failed => some (s.setPc i .idle)
  | .unlock _ => some ({ s with owner := s.owner + 1 }.setPc i .idle)

def step (s : State ι) : Act ι → Option (State ι)
  | .lock i => match s.pc i with
    | .idle => some (s.setPc i .lock)
    | _ => none
  | .tryLock i => match s.pc i with
    | .idle => some (s.setPc i .tryLoad)
    | _ => none
  | .unlock i => match s.pc i with
    | .holding k => some (s.setPc i (.unlock k))
    | _ => none
  | .step i => threadStep s i

def init : State ι := ⟨0, 0, fun _ => .idle, [], []⟩

variable (ι) in
def system : System (State ι) (Act ι) := ⟨fun s => s = init, step⟩

end model

/-- The ticket of a call that was not served yet. -/
def Pc.ticket : Pc → Option Nat
  | .spin k | .holding k | .unlock k => some k
  | _ => none

/-- The thread has the lock. -/
def Pc.inside : Pc → Bool
  | .holding _ | .unlock _ => true
  | _ => false

/-- In `TryLock`. -/
def Pc.trying : Pc → Bool
  | .tryLoad | .tryCas _ => true
  | _ => false

section invariant

variable {ι : Type}

/-- The lock is held, or somebody waits for it. -/
def State.taken (s : State ι) : Prop := ∃ i, (s.pc i).ticket ≠ none

/-- Thread `i` calls `TryLock`. -/
def begins (i : ι) (a : Act ι) : Prop := a = .tryLock i

structure Inv (h : History (State ι) (Act ι)) (s : State ι) : Prop where
  le : s.owner ≤ s.nextFree
  unique : Threads.Unique Pc.ticket s.pc
  drawn : ∀ k, (∃ i, (s.pc i).ticket = some k) ↔ s.owner ≤ k ∧ k < s.nextFree
  inside : ∀ i k, (s.pc i).inside = true → (s.pc i).ticket = some k → k = s.owner
  issued : s.issued = List.range s.nextFree
  acquired : s.acquired = List.range s.owner ∧ (∀ i, (s.pc i).inside = false) ∨
    s.acquired = List.range (s.owner + 1) ∧ ∃ i, (s.pc i).inside = true
  tryCas : ∀ i k, s.pc i = .tryCas k → k ≤ s.owner ∧ (s.nextFree ≠ k → During (begins i) State.taken h s)
  failed : ∀ i, s.pc i = .failed → During (begins i) State.taken h s

end invariant

section steps

variable {ι : Type} [DecidableEq ι] {h : History (State ι) (Act ι)} {s s' : State ι} {a : Act ι} {i : ι} {q : Pc}
  {k : Nat}

omit [DecidableEq ι] in
/-- A drawn ticket was not served. -/
theorem Inv.ticket_bounds (hi : Inv h s) (hk : (s.pc i).ticket = some k) : s.owner ≤ k ∧ k < s.nextFree :=
  (hi.drawn k).1 ⟨i, hk⟩

omit [DecidableEq ι] in
theorem Inv.taken_of_lt (hi : Inv h s) (hlt : s.owner < s.nextFree) : s.taken := by
  obtain ⟨i, hk⟩ := (hi.drawn s.owner).2 ⟨le_rfl, hlt⟩
  exact ⟨i, by rw [hk]; nofun⟩

omit [DecidableEq ι] in
theorem ticket_of_inside {p : Pc} (hp : p.inside = true) : ∃ k, p.ticket = some k := by
  cases p with
  | holding k => exact ⟨k, rfl⟩
  | unlock k => exact ⟨k, rfl⟩
  | _ => cases hp

omit [DecidableEq ι] in
/-- One thread is inside. -/
theorem Inv.exclusive (hi : Inv h s) {j : ι} (h1 : (s.pc i).inside = true) (h2 : (s.pc j).inside = true) : i = j := by
  obtain ⟨k, hk⟩ := ticket_of_inside h1
  obtain ⟨k', hk'⟩ := ticket_of_inside h2
  obtain rfl := hi.inside i k h1 hk
  obtain rfl := hi.inside j k' h2 hk'
  exact hi.unique i j _ hk hk'

omit [DecidableEq ι] in
/-- While nobody is inside, the tickets served are those below `owner_ticket_`. -/
theorem Inv.acquired_of_free (hi : Inv h s) (hfree : ∀ j, (s.pc j).inside = false) :
    s.acquired = List.range s.owner := by
  rcases hi.acquired with ⟨h1, -⟩ | ⟨-, j, hj⟩
  · exact h1
  · rw [hfree j] at hj
    cases hj

/-! ### The calls of `TryLock` -/

/-- The threads in `TryLock` after a step of thread `i`, which may have drawn a ticket. -/
theorem Inv.tries (hi : Inv h s) (hpc : s'.pc = update s.pc i q) (hothers : ∀ j, j ≠ i → ¬ begins j a)
    (howner : s.owner ≤ s'.owner) (hnext : s'.nextFree = s.nextFree ∨ s'.taken)
    (hcas : ∀ k, q = .tryCas k → k ≤ s'.owner ∧
      (s'.nextFree ≠ k → During (begins i) State.taken ((a, s) :: h) s'))
    (hfail : q = .failed → During (begins i) State.taken ((a, s) :: h) s') :
    (∀ j k, s'.pc j = .tryCas k → k ≤ s'.owner ∧
      (s'.nextFree ≠ k → During (begins j) State.taken ((a, s) :: h) s')) ∧
    ∀ j, s'.pc j = .failed → During (begins j) State.taken ((a, s) :: h) s' := by
  rw [hpc]
  refine ⟨fun j k hj => ?_, fun j hj => ?_⟩
  · rcases eq_or_ne j i with rfl | hji
    · rw [update_self] at hj
      exact hcas k hj
    · rw [update_of_ne hji] at hj
      obtain ⟨hle, hd⟩ := hi.tryCas j k hj
      refine ⟨hle.trans howner, fun hne => ?_⟩
      rcases hnext with heq | htaken
      · rw [heq] at hne
        exact (hd hne).later (hothers j hji)
      · exact .now htaken
  · rcases eq_or_ne j i with rfl | hji
    · rw [update_self] at hj
      exact hfail hj
    · rw [update_of_ne hji] at hj
      exact (hi.failed j hj).later (hothers j hji)

/-! ### The steps -/

/-- A step that draws no ticket and serves none. -/
theorem Inv.move (hi : Inv h s) (hothers : ∀ j, j ≠ i → ¬ begins j a) (hticket : q.ticket = (s.pc i).ticket)
    (hinside : q.inside = (s.pc i).inside)
    (hcas : ∀ k, q = .tryCas k → k ≤ s.owner ∧
      (s.nextFree ≠ k → During (begins i) State.taken ((a, s) :: h) (s.setPc i q)))
    (hfail : q = .failed → During (begins i) State.taken ((a, s) :: h) (s.setPc i q)) :
    Inv ((a, s) :: h) (s.setPc i q) := by
  have ht : ∀ j, ((s.setPc i q).pc j).ticket = (s.pc j).ticket := by
    intro j
    rcases eq_or_ne j i with rfl | hji
    · exact (congrArg Pc.ticket (update_self ..)).trans hticket
    · exact congrArg Pc.ticket (update_of_ne hji ..)
  have hin : ∀ j, ((s.setPc i q).pc j).inside = (s.pc j).inside := by
    intro j
    rcases eq_or_ne j i with rfl | hji
    · exact (congrArg Pc.inside (update_self ..)).trans hinside
    · exact congrArg Pc.inside (update_of_ne hji ..)
  obtain ⟨htry, hfailed⟩ := hi.tries (rfl : (s.setPc i q).pc = _) hothers le_rfl (.inl rfl) hcas hfail
  refine ⟨hi.le, fun j j' k h1 h2 => ?_, fun k => ?_, fun j k h1 h2 => ?_, hi.issued, ?_, htry, hfailed⟩
  · rw [ht] at h1 h2
    exact hi.unique j j' k h1 h2
  · simp only [ht]
    exact hi.drawn k
  · rw [hin] at h1
    rw [ht] at h2
    exact hi.inside j k h1 h2
  · simp only [hin]
    exact hi.acquired

/-- Thread `i` draws the next ticket. -/
theorem Inv.drawTicket (hi : Inv h s) (hnone : (s.pc i).ticket = none) (hothers : ∀ j, j ≠ i → ¬ begins j a)
    (hpc : s'.pc = update s.pc i q) (hq : q.ticket = some s.nextFree) (hn : s'.nextFree = s.nextFree + 1)
    (ho : s'.owner = s.owner) (hissued : s'.issued = s.issued ++ [s.nextFree])
    (hin : q.inside = true → s.nextFree = s.owner)
    (hacq : s'.acquired = List.range s'.owner ∧ (∀ j, (s'.pc j).inside = false) ∨
      s'.acquired = List.range (s'.owner + 1) ∧ ∃ j, (s'.pc j).inside = true) : Inv ((a, s) :: h) s' := by
  have hself : s'.pc i = q := by rw [hpc, update_self]
  have hne : ∀ j, j ≠ i → s'.pc j = s.pc j := fun j hji => by rw [hpc, update_of_ne hji]
  have htaken : s'.taken := ⟨i, by rw [hself, hq]; nofun⟩
  have hnocas : ∀ k, q ≠ .tryCas k := by
    rintro k rfl
    cases hq
  obtain ⟨htry, hfailed⟩ := hi.tries hpc hothers ho.ge (.inr htaken) (fun k hk => absurd hk (hnocas k))
    fun hf => by rw [hf] at hq; cases hq
  have hle := hi.le
  refine ⟨by omega, ?_, fun k => ⟨?_, fun hk => ?_⟩, fun j k h1 h2 => ?_, ?_, hacq, htry, hfailed⟩
  · rw [hpc]
    refine hi.unique.update fun j k _ hk hqk => ?_
    rw [hq, Option.some.injEq] at hqk
    have := (hi.ticket_bounds hk).2
    omega
  · rintro ⟨j, hj⟩
    rcases eq_or_ne j i with rfl | hji
    · rw [hself, hq, Option.some.injEq] at hj
      omega
    · rw [hne j hji] at hj
      have := hi.ticket_bounds hj
      omega
  · rcases eq_or_ne k s.nextFree with rfl | hkn
    · exact ⟨i, by rw [hself, hq]⟩
    · obtain ⟨j, hj⟩ := (hi.drawn k).2 ⟨by omega, by omega⟩
      have hji : j ≠ i := by
        rintro rfl
        rw [hnone] at hj
        cases hj
      exact ⟨j, by rw [hne j hji, hj]⟩
  · rw [ho]
    rcases eq_or_ne j i with rfl | hji
    · rw [hself] at h1 h2
      rw [hq, Option.some.injEq] at h2
      rw [← h2, hin h1]
    · rw [hne j hji] at h1 h2
      exact hi.inside j k h1 h2
  · rw [hissued, hn, hi.issued, List.range_succ]

/-- `Lock` sees its ticket served. -/
theorem Inv.serve (hi : Inv h s) (hpc : s.pc i = .spin k) (hk : s.owner = k) (hothers : ∀ j, j ≠ i → ¬ begins j a) :
    Inv ((a, s) :: h) (s.acquire i k) := by
  have hself : (s.acquire i k).pc i = .holding k := update_self ..
  have hne : ∀ j, j ≠ i → (s.acquire i k).pc j = s.pc j := fun j hji => update_of_ne hji ..
  -- somebody inside would have the same ticket
  have hfree : ∀ j, (s.pc j).inside = false := by
    intro j
    by_contra hin
    rw [Bool.not_eq_false] at hin
    obtain ⟨k', hk'⟩ := ticket_of_inside hin
    obtain rfl := hi.inside j k' hin hk'
    obtain rfl := hi.unique j i _ hk' (by rw [hpc, Pc.ticket, hk])
    rw [hpc] at hin
    cases hin
  have ht : ∀ j, ((s.acquire i k).pc j).ticket = (s.pc j).ticket := by
    intro j
    rcases eq_or_ne j i with rfl | hji
    · rw [hself, hpc]
      rfl
    · rw [hne j hji]
  obtain ⟨htry, hfailed⟩ := hi.tries (rfl : (s.acquire i k).pc = _) hothers le_rfl (.inl rfl) nofun nofun
  refine ⟨hi.le, fun j j' k h1 h2 => ?_, fun k' => ?_, fun j k' h1 h2 => ?_, hi.issued,
    .inr ⟨?_, i, by rw [hself]; rfl⟩, htry, hfailed⟩
  · rw [ht] at h1 h2
    exact hi.unique j j' k h1 h2
  · simp only [ht]
    exact hi.drawn k'
  · rcases eq_or_ne j i with rfl | hji
    · rw [hself] at h2
      obtain rfl := Option.some.inj h2
      exact hk.symm
    · rw [hne j hji, hfree j] at h1
      cases h1
  · change s.acquired ++ [k] = List.range (s.owner + 1)
    rw [hi.acquired_of_free hfree, List.range_succ, hk]

/-- `TryLock` draws a ticket when the lock is free, and has it. -/
theorem Inv.tryAcquire (hi : Inv h s) (hpc : s.pc i = .tryCas k) (hk : s.nextFree = k)
    (hothers : ∀ j, j ≠ i → ¬ begins j a) : Inv ((a, s) :: h) (s.draw.acquire i k) := by
  have hown : s.nextFree = s.owner := by
    have h1 := (hi.tryCas i k hpc).1
    have h2 := hi.le
    omega
  have hfree : ∀ j, (s.pc j).inside = false := by
    intro j
    by_contra hin
    rw [Bool.not_eq_false] at hin
    obtain ⟨k', hk'⟩ := ticket_of_inside hin
    have := hi.ticket_bounds hk'
    omega
  have hself : (s.draw.acquire i k).pc i = .holding k := update_self ..
  refine hi.drawTicket (q := .holding k) (by rw [hpc]; rfl) hothers rfl (by rw [hk]; rfl) rfl rfl rfl (fun _ => hown)
    (.inr ⟨?_, i, by rw [hself]; rfl⟩)
  change s.acquired ++ [k] = List.range (s.owner + 1)
  rw [hi.acquired_of_free hfree, List.range_succ, ← hk, hown]

/-- `Unlock` serves the next ticket. -/
theorem Inv.release (hi : Inv h s) (hpc : s.pc i = .unlock k) (hothers : ∀ j, j ≠ i → ¬ begins j a) :
    Inv ((a, s) :: h) ({ s with owner := s.owner + 1 }.setPc i .idle) := by
  generalize hs' : ({ s with owner := s.owner + 1 }.setPc i .idle : State ι) = s'
  have hself : s'.pc i = .idle := by rw [← hs']; exact update_self ..
  have hne : ∀ j, j ≠ i → s'.pc j = s.pc j := fun j hji => by rw [← hs']; exact update_of_ne hji ..
  have ho : s'.owner = s.owner + 1 := by rw [← hs']; rfl
  have hn : s'.nextFree = s.nextFree := by rw [← hs']; rfl
  have hin : (s.pc i).inside = true := by rw [hpc]; rfl
  have htk : (s.pc i).ticket = some k := by rw [hpc]; rfl
  obtain rfl := hi.inside i k hin htk
  have hb := hi.ticket_bounds htk
  have hothersFree : ∀ j, (s'.pc j).inside = false := by
    intro j
    rcases eq_or_ne j i with rfl | hji
    · rw [hself]
      rfl
    · rw [hne j hji]
      by_contra hj
      rw [Bool.not_eq_false] at hj
      exact hji (hi.exclusive hj hin)
  obtain ⟨htry, hfailed⟩ := hi.tries (q := .idle) (by rw [← hs']; rfl) hothers (by omega) (.inl hn) nofun nofun
  refine ⟨by omega, fun j j' k h1 h2 => ?_, fun k => ⟨?_, fun hk => ?_⟩, fun j k h1 _ => ?_, ?_,
    .inl ⟨?_, hothersFree⟩, htry, hfailed⟩
  · have hji : j ≠ i := by rintro rfl; rw [hself] at h1; cases h1
    have hji' : j' ≠ i := by rintro rfl; rw [hself] at h2; cases h2
    rw [hne _ hji] at h1
    rw [hne _ hji'] at h2
    exact hi.unique j j' k h1 h2
  · rintro ⟨j, hj⟩
    have hji : j ≠ i := by rintro rfl; rw [hself] at hj; cases hj
    rw [hne j hji] at hj
    have hjb := hi.ticket_bounds hj
    have hko : k ≠ s.owner := by
      rintro rfl
      exact hji (hi.unique j i _ hj htk)
    omega
  · obtain ⟨j, hj⟩ := (hi.drawn k).2 ⟨by omega, by omega⟩
    have hji : j ≠ i := by
      rintro rfl
      rw [htk, Option.some.injEq] at hj
      omega
    exact ⟨j, by rw [hne j hji, hj]⟩
  · rw [hothersFree j] at h1
    cases h1
  · rw [hn, ← hs']
    exact hi.issued
  · rw [ho, ← hs']
    rcases hi.acquired with ⟨-, hno⟩ | ⟨h1, -⟩
    · rw [hno i] at hin
      cases hin
    · exact h1

omit [DecidableEq ι] in
theorem Inv.init : Inv [] (init : State ι) where
  le := le_rfl
  unique _ _ _ h := nomatch h
  drawn k := ⟨fun ⟨_, h⟩ => (nomatch h), fun h => absurd h.2 (Nat.not_lt_zero k)⟩
  inside _ _ h := nomatch h
  issued := rfl
  acquired := .inl ⟨rfl, fun _ => rfl⟩
  tryCas _ _ h := nomatch h
  failed _ h := nomatch h

theorem Inv.thread (hi : Inv h s) (hs : threadStep s i = some s') : Inv ((.step i, s) :: h) s' := by
  have hothers : ∀ j, j ≠ i → ¬ begins j (.step i : Act ι) := fun _ _ => nofun
  unfold threadStep at hs
  split at hs
  · cases hs
  · cases hs
  · next hpc =>
    obtain rfl := Option.some.inj hs
    refine hi.drawTicket (q := .spin s.nextFree) (by rw [hpc]; rfl) hothers rfl rfl rfl rfl rfl nofun ?_
    have hself : (s.draw.setPc i (.spin s.nextFree)).pc i = .spin s.nextFree := update_self ..
    have hin : ∀ j, ((s.draw.setPc i (.spin s.nextFree)).pc j).inside = (s.pc j).inside := by
      intro j
      rcases eq_or_ne j i with rfl | hji
      · rw [hself, hpc]
        rfl
      · exact congrArg Pc.inside (update_of_ne hji ..)
    simp only [hin]
    exact hi.acquired
  · next k hpc =>
    obtain rfl := Option.some.inj hs
    split
    · next hk => exact hi.serve hpc hk hothers
    · have hsame : s = s.setPc i (.spin k) := by
        conv_lhs => rw [show s = { s with pc := update s.pc i (s.pc i) } by rw [update_eq_self]]
        rw [hpc]
        rfl
      conv => arg 2; rw [hsame]
      exact hi.move hothers (by rw [hpc]) (by rw [hpc]) nofun nofun
  · next hpc =>
    obtain rfl := Option.some.inj hs
    refine hi.move hothers (by rw [hpc]; rfl) (by rw [hpc]; rfl) (fun k hk => ?_) nofun
    cases hk
    refine ⟨le_rfl, fun hne => .now ?_⟩
    obtain ⟨j, hj⟩ := hi.taken_of_lt (lt_of_le_of_ne hi.le hne.symm)
    have hji : j ≠ i := by
      rintro rfl
      rw [hpc] at hj
      exact hj rfl
    exact ⟨j, (congrArg Pc.ticket (update_of_ne hji ..)).trans_ne hj⟩
  · next k hpc =>
    obtain rfl := Option.some.inj hs
    split
    · next hk => exact hi.tryAcquire hpc hk hothers
    · next hk =>
      refine hi.move hothers (by rw [hpc]; rfl) (by rw [hpc]; rfl) nofun fun _ => ?_
      exact ((hi.tryCas i k hpc).2 hk).later nofun
  · next hpc =>
    obtain rfl := Option.some.inj hs
    exact hi.move hothers (by rw [hpc]; rfl) (by rw [hpc]; rfl) nofun nofun
  · next k hpc =>
    obtain rfl := Option.some.inj hs
    exact hi.release hpc hothers

theorem Inv.step (hi : Inv h s) (hs : step s a = some s') : Inv ((a, s) :: h) s' := by
  cases a with
  | lock i =>
    simp only [TicketLock.step] at hs
    split at hs
    · next hpc =>
      obtain rfl := Option.some.inj hs
      exact hi.move (fun _ _ => nofun) (by rw [hpc]; rfl) (by rw [hpc]; rfl) nofun nofun
    · cases hs
  | tryLock i =>
    simp only [TicketLock.step] at hs
    split at hs
    · next hpc =>
      obtain rfl := Option.some.inj hs
      refine hi.move (fun j hj hb => ?_) (by rw [hpc]; rfl) (by rw [hpc]; rfl) nofun nofun
      cases hb
      exact hj rfl
    · cases hs
  | unlock i =>
    simp only [TicketLock.step] at hs
    split at hs
    · next hpc =>
      obtain rfl := Option.some.inj hs
      exact hi.move (fun _ _ => nofun) (by rw [hpc]; rfl) (by rw [hpc]; rfl) nofun nofun
    · cases hs
  | step i => exact hi.thread hs

end steps

section main

variable {ι : Type} [DecidableEq ι]

/-- The lock after a run: one thread has it; the tickets drawn are all different, and the lock was acquired in their
order; the two counters are in order; a `TryLock` whose CAS succeeds has the lock, which was free; one that fails has
changed neither counter, and at some moment of the call the lock was held or waited for. -/
structure Correct (h : History (State ι) (Act ι)) (s : State ι) : Prop where
  exclusive : ∀ i j, (s.pc i).inside = true → (s.pc j).inside = true → i = j
  distinct : s.issued.Nodup ∧ (∀ i k, (s.pc i).ticket = some k → k ∈ s.issued) ∧ Threads.Unique Pc.ticket s.pc
  order : s.acquired <+: s.issued
  le : s.owner ≤ s.nextFree
  tryLock : ∀ i k s', s.pc i = .tryCas k → step s (.step i) = some s' →
    (s'.pc i = .holding k ∧ k = s'.owner ∧ ∀ j, (s.pc j).inside = false) ∨ s'.pc i = .failed
  unchanged : ∀ i s', (s.pc i).trying = true → step s (.step i) = some s' → (s'.pc i).inside = false →
    s'.nextFree = s.nextFree ∧ s'.owner = s.owner
  failed : ∀ i, s.pc i = .failed → During (begins i) State.taken h s

omit [DecidableEq ι] in
theorem Inv.order {h : History (State ι) (Act ι)} {s : State ι} (hi : Inv h s) : s.acquired <+: s.issued := by
  have hprefix : ∀ n m, n ≤ m → List.range n <+: List.range m := by
    intro n m hnm
    obtain ⟨d, rfl⟩ := Nat.exists_eq_add_of_le hnm
    rw [List.range_add]
    exact List.prefix_append ..
  rw [hi.issued]
  rcases hi.acquired with ⟨h1, -⟩ | ⟨h1, i, hin⟩
  · rw [h1]
    exact hprefix _ _ hi.le
  · obtain ⟨k, hk⟩ := ticket_of_inside hin
    have hb := hi.ticket_bounds hk
    rw [h1]
    exact hprefix _ _ (by omega)

/-- In every run, with any number of threads. -/
theorem ticketLock_correct {h : History (State ι) (Act ι)} {s : State ι} (r : Run (system ι) anyStep h s) :
    Correct h s := by
  have hi : Inv h s := r.invariant (fun _ hs => hs ▸ Inv.init) fun _ _ _ _ hi _ hs => hi.step hs
  refine ⟨fun i j => hi.exclusive, ⟨?_, fun i k hk => ?_, hi.unique⟩, hi.order, hi.le, fun i k s' hpc hs => ?_,
    fun i s' htry hs hout => ?_, hi.failed⟩
  · rw [hi.issued]
    exact List.nodup_range
  · rw [hi.issued]
    exact List.mem_range.2 (hi.ticket_bounds hk).2
  · simp only [step, threadStep, hpc, Option.some.injEq] at hs
    subst hs
    by_cases hk : s.nextFree = k
    · have hle := hi.le
      have hcas := (hi.tryCas i k hpc).1
      have hself : (s.draw.acquire i k).pc i = .holding k := update_self ..
      have howner : (s.draw.acquire i k).owner = s.owner := rfl
      rw [if_pos hk]
      refine .inl ⟨hself, by omega, fun j => ?_⟩
      by_contra hin
      rw [Bool.not_eq_false] at hin
      obtain ⟨k', hk'⟩ := ticket_of_inside hin
      have := hi.ticket_bounds hk'
      omega
    · rw [if_neg hk]
      exact .inr (update_self ..)
  · cases hpc : s.pc i <;> rw [hpc] at htry <;> try cases htry
    · simp only [step, threadStep, hpc, Option.some.injEq] at hs
      subst hs
      exact ⟨rfl, rfl⟩
    · next k =>
      simp only [step, threadStep, hpc, Option.some.injEq] at hs
      subst hs
      by_cases hk : s.nextFree = k
      · have hself : (s.draw.acquire i k).pc i = .holding k := update_self ..
        rw [if_pos hk, hself] at hout
        cases hout
      · rw [if_neg hk]
        exact ⟨rfl, rfl⟩

/-- Thread 0 has the lock while thread 1 tries; thread 0 releases it, and thread 2 gets it with `TryLock`. -/
def lockAndTry : List (Act (Fin 3)) :=
  [.lock 0, .step 0, .tryLock 1, .step 1, .step 0, .step 1, .unlock 0, .step 0, .tryLock 2, .step 2, .step 2]

theorem ticketLock_correct_tried : ∃ h, ∃ s : State (Fin 3), Run (system (Fin 3)) anyStep h s ∧
    (s.pc 1 = .failed ∧ s.pc 2 = .holding 1) ∧ Correct h s := by
  obtain ⟨s, ⟨h, r⟩, hp⟩ := Reach.of_exec_any (system (Fin 3)) lockAndTry
    (fun s => decide (s.pc 1 = .failed ∧ s.pc 2 = .holding 1)) (s := init) rfl (by decide)
  exact ⟨h, s, r, of_decide_eq_true hp, ticketLock_correct r⟩

end main

end Mutex.TicketLock
