import ConcurrencyCourse.Stdlike.CondVar

/-!
# `CondVar` past `2^32` tickets (tasks/cond/condvar/condvar.hpp)

The slot of a ticket is the same for its waiter and its notifier also after a wrap: both take the word of the same
number. The test `h_.load() >= t_.load()` compares words: it is right as long as no multiple of `2^32` lies above `h`
and at most `t` (`Together`), at the first load and, if that is the one of `h_`, also at the second: between the two
others may take tickets. `survives_wrap` is about runs of any length in which that holds whenever a load decides a test;
`wraps` is a run in which `t_` has just wrapped to `0` and a `NotifyOne` leaves the only waiter asleep.
-/

namespace Stdlike.CondVar

open Transition

variable {ι : Type} [DecidableEq ι]

/-! ### Calls and tickets of a run -/

/-- Thread `i` begins a call. -/
def calls (i : ι) : Act ι → Bool
  | .callWait j | .callNotifyOne j | .callNotifyAll j => j = i
  | _ => false

def Pc.isFetchAdd : Pc → Bool
  | .fetchAdd _ => true
  | _ => false

/-- Thread `i` takes a ticket from `h_`. -/
def takes (i : ι) (s : State ι) : Act ι → Bool
  | .step j _ _ => decide (j = i) && (s.pc j).isFetchAdd
  | _ => false

/-- The last call of thread `i`, with the state it began in. -/
def called (i : ι) (h : History (State ι) (Act ι)) : Option (Act ι × State ι) := h.find? fun e => calls i e.1

/-- The state in which thread `i` took its last ticket of `h_`. -/
def took (i : ι) (h : History (State ι) (Act ι)) : Option (State ι) :=
  (h.find? fun e => takes i e.2 e.1).map Prod.snd

/-- The tickets of `h_` that thread `i` has taken in its current call. -/
def tickets (i : ι) : History (State ι) (Act ι) → List Nat
  | [] => []
  | (a, s) :: h => if calls i a then [] else if takes i s a then s.h :: tickets i h else tickets i h

/-- The ticket of `h_` that a notifier holds. -/
def Pc.head : Pc → Option Nat
  | .store _ head | .prepareWake _ head | .wake _ head => some head
  | _ => none

/-- The test of a `NotifyAll`, with the value of `t_` when it was called. -/
def Test.since? : Test → Option Nat
  | .one => none
  | .all since | .loop since => some since

/-- The same for a place. -/
def Pc.since? : Pc → Option Nat
  | .test c | .loaded c _ _ | .fetchAdd c | .store c _ | .prepareWake c _ | .wake c _ => c.since?
  | .notifiedAll since => some since
  | _ => none

/-! ### Words of the same epoch -/

/-- No multiple of `2^32` lies above `h` and at most `t`. -/
def Together (h t : Nat) : Prop := h < t → h / 2 ^ 32 = t / 2 ^ 32

/-- The load decides a test: the first one, or the one of `t_` that comes second. -/
def Pc.decides : Pc → Prop
  | .test _ => True
  | .loaded _ .head _ => True
  | _ => False

/-- A load that decides a test finds the counters in one epoch. -/
def testsTogether (s : State ι) : Act ι → Prop
  | .step i _ _ => (s.pc i).decides → Together s.h s.t
  | _ => True

theorem word_lt_word {m n : Nat} (h : m < n) (he : m / 2 ^ 32 = n / 2 ^ 32) : word m < word n := by
  unfold word
  omega

/-- Two values that a test compares, loaded at different moments: `h` and `t` were there at one moment, `h'` and `t'`
are what is compared. -/
theorem Together.word_lt {h t h' t' : Nat} (ht : Together h t) (hh : h ≤ h') (hlt : h' < t) (he : t = t') :
    word h' < word t' := by
  subst he
  refine word_lt_word hlt ?_
  have he := ht (Nat.lt_of_le_of_lt hh hlt)
  have h1 := Nat.div_le_div_right (c := 2 ^ 32) hh
  have h2 := Nat.div_le_div_right (c := 2 ^ 32) hlt.le
  exact Nat.le_antisymm h2 (he ▸ h1)

/-! ### What a call knows -/

/-- What a test has loaded, in a call that began with `since` tickets taken. -/
def Pc.compares (h t since : Nat) : Pc → Prop
  | .loaded _ .head v => ∃ H T, v = word H ∧ H ≤ h ∧ since ≤ T ∧ T ≤ t ∧ Together H T
  | .loaded _ .tail v => ∃ H T, v = word T ∧ H ≤ h ∧ since ≤ T ∧ T ≤ t ∧ Together H T
  | .notifiedAll _ => since ≤ h
  | _ => True

/-- What a `NotifyOne` has done, that began when `h₀` and `t₀` tickets were taken: it goes on, or it has taken a ticket
of its own, or all that were pending are taken. -/
def Pc.serves (h t h₀ t₀ : Nat) (mine : List Nat) : Pc → Prop
  | .test .one | .fetchAdd .one => True
  | .loaded .one what v => (Pc.loaded .one what v).compares h t t₀
  | .store .one _ | .prepareWake .one _ | .wake .one _ => ∃ k ∈ mine, h₀ ≤ k ∧ k < h
  | .idle => (∃ k ∈ mine, h₀ ≤ k ∧ k < h) ∨ t₀ ≤ h
  | _ => False

/-- Thread `i` in a run. -/
structure Follows (i : ι) (h : History (State ι) (Act ι)) (s : State ι) : Prop where
  grown : ∀ a s₀, called i h = some (a, s₀) → s₀.h ≤ s.h ∧ s₀.t ≤ s.t
  ticket : ∀ k, (s.pc i).ticket = some k → ∃ s₀, called i h = some (.callWait i, s₀) ∧ k = word s₀.t
  head : ∀ k, (s.pc i).head = some k → ∃ s₁, took i h = some s₁ ∧ k = word s₁.h
  since : ∀ x, (s.pc i).since? = some x → ∃ s₀, called i h = some (.callNotifyAll i, s₀) ∧ x = s₀.t
  one : ∀ s₀, called i h = some (.callNotifyOne i, s₀) → (s.pc i).serves s.h s.t s₀.h s₀.t (tickets i h)
  all : ∀ x, (s.pc i).since? = some x → (s.pc i).compares s.h s.t x

theorem compares_mono {p : Pc} {h h' t t' since : Nat} (hc : p.compares h t since) (hh : h ≤ h') (ht : t ≤ t') :
    p.compares h' t' since := by
  cases p with
  | loaded c what v =>
    cases what
    all_goals
      obtain ⟨H, T, hv, hH, hs, hT, htog⟩ := hc
      exact ⟨H, T, hv, hH.trans hh, hs, hT.trans ht, htog⟩
  | notifiedAll x => exact Nat.le_trans hc hh
  | _ => trivial

theorem serves_mono {pc : Pc} {h h' t t' h₀ t₀ : Nat} {mine : List Nat} (hs : pc.serves h t h₀ t₀ mine)
    (hh : h ≤ h') (ht : t ≤ t') : pc.serves h' t' h₀ t₀ mine := by
  have hex : (∃ k ∈ mine, h₀ ≤ k ∧ k < h) → ∃ k ∈ mine, h₀ ≤ k ∧ k < h' := fun ⟨k, hk, h1, h2⟩ =>
    ⟨k, hk, h1, Nat.lt_of_lt_of_le h2 hh⟩
  cases pc with
  | idle => exact hs.imp hex fun h => Nat.le_trans h hh
  | test c | fetchAdd c =>
    cases c with
    | one => trivial
    | all | loop => exact hs.elim
  | loaded c what v =>
    cases c with
    | one => exact compares_mono (p := .loaded .one what v) hs hh ht
    | all | loop => exact hs.elim
  | store c | prepareWake c | wake c =>
    cases c with
    | one => exact hex hs
    | all | loop => exact hs.elim
  | _ => exact hs.elim

section follows

variable {i : ι} {h : History (State ι) (Act ι)} {s s' : State ι} {a : Act ι}

theorem called_later (ha : calls i a = false) : called i ((a, s) :: h) = called i h := by
  simp [called, ha]

theorem called_begins (ha : calls i a = true) : called i ((a, s) :: h) = some (a, s) := by
  simp [called, ha]

theorem took_later (ha : takes i s a = false) : took i ((a, s) :: h) = took i h := by
  simp [took, ha]

theorem took_takes (ha : takes i s a = true) : took i ((a, s) :: h) = some s := by
  simp [took, ha]

theorem tickets_later (ha : calls i a = false) (ht : takes i s a = false) : tickets i ((a, s) :: h) = tickets i h := by
  simp [tickets, ha, ht]

theorem tickets_takes (ha : calls i a = false) (ht : takes i s a = true) :
    tickets i ((a, s) :: h) = s.h :: tickets i h := by
  simp [tickets, ha, ht]

/-- A step after the call began, that does not take a ticket from `h_` or takes the one the thread then holds. -/
theorem Follows.moves (hf : Follows i h s) (ha : calls i a = false) (hh : s.h ≤ s'.h) (ht : s.t ≤ s'.t)
    (hk : ∀ k, (s'.pc i).ticket = some k → (s.pc i).ticket = some k)
    (hd : ∀ k, (s'.pc i).head = some k →
      (takes i s a = false ∧ (s.pc i).head = some k) ∨ (takes i s a = true ∧ k = word s.h))
    (hs : ∀ x, (s'.pc i).since? = some x → (s.pc i).since? = some x)
    (ho : ∀ h₀ t₀, h₀ ≤ s.h → t₀ ≤ s.t → (s.pc i).serves s.h s.t h₀ t₀ (tickets i h) →
      (s'.pc i).serves s'.h s'.t h₀ t₀ (tickets i ((a, s) :: h)))
    (hall : ∀ x, (s'.pc i).since? = some x → x ≤ s.t → (s.pc i).compares s.h s.t x →
      (s'.pc i).compares s'.h s'.t x) :
    Follows i ((a, s) :: h) s' := by
  constructor
  · intro b s₀ hc
    rw [called_later ha] at hc
    obtain ⟨h1, h2⟩ := hf.grown b s₀ hc
    exact ⟨h1.trans hh, h2.trans ht⟩
  · intro k hpc
    rw [called_later ha]
    exact hf.ticket k (hk k hpc)
  · intro k hpc
    rcases hd k hpc with ⟨hta, hold⟩ | ⟨hta, hnew⟩
    · rw [took_later hta]
      exact hf.head k hold
    · exact ⟨s, took_takes hta, hnew⟩
  · intro x hx
    rw [called_later ha]
    exact hf.since x (hs x hx)
  · intro s₀ hc
    rw [called_later ha] at hc
    obtain ⟨h1, h2⟩ := hf.grown _ s₀ hc
    exact ho _ _ h1 h2 (hf.one s₀ hc)
  · intro x hx
    obtain ⟨s₀, hc, rfl⟩ := hf.since x (hs x hx)
    exact hall _ hx (hf.grown _ s₀ hc).2 (hf.all _ (hs _ hx))

/-- A step of another thread may wake thread `i`. -/
theorem Follows.stays (hf : Follows i h s) (ha : calls i a = false) (hta : takes i s a = false)
    (hh : s.h ≤ s'.h) (ht : s.t ≤ s'.t) (hpc : s'.pc i = s.pc i ∨ s'.pc i = (s.pc i).woken) :
    Follows i ((a, s) :: h) s' := by
  have hw : s'.pc i = s.pc i ∨ ∃ k, s.pc i = .parked k ∧ s'.pc i = .wait k := by
    rcases hpc with hpc | hpc
    · exact .inl hpc
    · cases hp : s.pc i with
      | parked k =>
        rw [hp] at hpc
        exact .inr ⟨k, rfl, hpc⟩
      | _ =>
        rw [hp] at hpc
        exact .inl hpc
  rcases hw with hpc | ⟨k, hp, hpc⟩
  · apply hf.moves ha hh ht <;> rw [hpc]
    · exact fun _ => id
    · exact fun k hk => .inl ⟨hta, hk⟩
    · exact fun _ => id
    · rw [tickets_later ha hta]
      exact fun _ _ _ _ hs => serves_mono hs hh ht
    · exact fun x _ _ hc => compares_mono hc hh ht
  · apply hf.moves ha hh ht <;> rw [hpc, hp]
    · exact fun _ => id
    · nofun
    · nofun
    · exact fun _ _ _ _ hs => hs.elim
    · nofun

theorem Follows.begins (ha : calls i a = true) (hh : s.h ≤ s'.h) (ht : s.t ≤ s'.t)
    (hk : ∀ k, (s'.pc i).ticket = some k → a = .callWait i ∧ k = word s.t)
    (hd : (s'.pc i).head = none)
    (hs : ∀ x, (s'.pc i).since? = some x → a = .callNotifyAll i ∧ x = s.t)
    (ho : a = .callNotifyOne i → s'.pc i = .test .one)
    (hall : ∀ x, (s'.pc i).compares s'.h s'.t x) :
    Follows i ((a, s) :: h) s' := by
  have hc := called_begins (h := h) (s := s) ha
  constructor
  · intro b s₀ h0
    rw [hc] at h0
    cases h0
    exact ⟨hh, ht⟩
  · intro k hpc
    obtain ⟨rfl, hw⟩ := hk k hpc
    exact ⟨s, hc, hw⟩
  · intro k hpc
    rw [hd] at hpc
    cases hpc
  · intro x hx
    obtain ⟨rfl, hw⟩ := hs x hx
    exact ⟨s, hc, hw⟩
  · intro s₀ h0
    rw [hc] at h0
    cases h0
    rw [ho rfl]
    trivial
  · exact fun x _ => hall x

/-! ### Steps -/

variable [Fintype ι]

omit [Fintype ι] in
theorem wakeOne_eq [Fintype ι] {head : Nat} {sleeper : Option ι} (hs : s.wakeOne head sleeper = some s') :
    s'.h = s.h ∧ s'.t = s.t ∧ ∀ j, s'.pc j = s.pc j ∨ s'.pc j = (s.pc j).woken := by
  unfold State.wakeOne at hs
  split at hs
  · next j =>
    split at hs
    · obtain rfl := Option.some.inj hs
      refine ⟨rfl, rfl, fun k => ?_⟩
      by_cases hk : k = j
      · subst hk
        exact .inr setPc_self
      · exact .inl (setPc_of_ne hk)
    · cases hs
  · split at hs
    · obtain rfl := Option.some.inj hs
      exact ⟨rfl, rfl, fun _ => .inl rfl⟩
    · cases hs

/-- What a step of another thread can do to thread `i`. -/
theorem next_other {j : ι} {what : Counter} {sleeper : Option ι} (hs : s.next j what sleeper = some s')
    (hj : i ≠ j) : s.h ≤ s'.h ∧ s.t ≤ s'.t ∧ (s'.pc i = s.pc i ∨ s'.pc i = (s.pc i).woken) := by
  unfold State.next at hs
  split at hs
  case h_11 =>
    obtain rfl := Option.some.inj hs
    exact ⟨Nat.le_succ _, Nat.le_refl _, .inl (setPc_of_ne hj)⟩
  case h_14 =>
    obtain ⟨s₁, hw, rfl⟩ := Option.map_eq_some_iff.1 hs
    obtain ⟨hh, ht, hpc⟩ := wakeOne_eq hw
    refine ⟨hh.ge, ht.ge, ?_⟩
    rw [setPc_of_ne hj]
    exact hpc i
  case h_15 =>
    obtain rfl := Option.some.inj hs
    refine ⟨Nat.le_refl _, Nat.le_refl _, ?_⟩
    rw [setPc_of_ne hj]
    simp only [State.wakeAll]
    split
    · exact .inr rfl
    · exact .inl rfl
  case h_1 | h_2 | h_3 => cases hs
  case h_6 =>
    split at hs
    · obtain rfl := Option.some.inj hs
      exact ⟨Nat.le_refl _, Nat.le_refl _, .inl (setPc_of_ne hj)⟩
    · cases hs
  all_goals
    obtain rfl := Option.some.inj hs
    exact ⟨Nat.le_refl _, Nat.le_refl _, .inl (setPc_of_ne hj)⟩

/-- The first load of a test. -/
def State.load (s : State ι) (c : Test) : Counter → Pc
  | .head => .loaded c .head (word s.h)
  | .tail => .loaded c .tail (word s.t)

omit [Fintype ι] in
theorem Follows.load (hf : Follows i h s) {what : Counter} {sleeper : Option ι} {c : Test}
    (hpc : s.pc i = .test c) (hok : (s.pc i).decides → Together s.h s.t) :
    Follows i ((.step i what sleeper, s) :: h) (s.setPc i (s.load c what)) := by
  have hta : takes i s (.step i what sleeper) = false := by simp [takes, hpc, Pc.isFetchAdd]
  have hcmp : ∀ x, x ≤ s.t → (s.load c what).compares s.h s.t x := by
    intro x hx
    rw [hpc] at hok
    cases what <;> exact ⟨s.h, s.t, rfl, Nat.le_refl _, hx, Nat.le_refl _, hok trivial⟩
  refine hf.moves rfl (Nat.le_refl _) (Nat.le_refl _) ?_ ?_ ?_ ?_ ?_ <;> rw [setPc_self]
  · cases what <;> nofun
  · cases what <;> nofun
  · rw [hpc]
    cases what <;> exact fun _ => id
  · intro h₀ t₀ _ hle hs
    rw [hpc] at hs
    cases c with
    | one => cases what <;> exact hcmp t₀ hle
    | all x | loop x => exact hs.elim
  · exact fun x _ hle _ => hcmp x hle

/-- What the second load says, when the first one was that of `w`; that of `t_` decides. -/
def State.compared (s : State ι) (v : Nat) (less : Bool) : Counter → Prop
  | .head => decide (v < word s.t) = less ∧ Together s.h s.t
  | .tail => decide (word s.h < v) = less

omit [DecidableEq ι] [Fintype ι] in
/-- There is nothing to notify: what was pending when the call began is taken. -/
theorem taken_of_not_less {c : Test} {w : Counter} {v x : Nat} (hcmp : (Pc.loaded c w v).compares s.h s.t x)
    (hless : s.compared v false w) : x ≤ s.h := by
  by_contra hlt
  have hlt := Nat.lt_of_not_le hlt
  cases w with
  | head =>
    obtain ⟨H, T, rfl, hH, hT, hTt, htog⟩ := hcmp
    obtain ⟨hless, hnow⟩ := hless
    have hHT : H / 2 ^ 32 = T / 2 ^ 32 := htog (by omega)
    have hht : s.h / 2 ^ 32 = s.t / 2 ^ 32 := hnow (by omega)
    -- `s.h` is between `H` and `T`: one epoch for all four
    have hw : word H < word s.t := word_lt_word (by omega) (by omega)
    exact of_decide_eq_false hless hw
  | tail =>
    obtain ⟨H, T, rfl, hH, hT, -, htog⟩ := hcmp
    exact of_decide_eq_false hless (htog.word_lt hH (by omega) rfl)

omit [Fintype ι] in
/-- The second load of a test. -/
theorem Follows.test (hf : Follows i h s) {what : Counter} {sleeper : Option ι} {c : Test} {w : Counter} {v : Nat}
    {less : Bool} (hpc : s.pc i = .loaded c w v)
    (hless : s.compared v less w) :
    Follows i ((.step i what sleeper, s) :: h) (s.setPc i (c.next less)) := by
  have hta : takes i s (.step i what sleeper) = false := by simp [takes, hpc, Pc.isFetchAdd]
  refine hf.moves rfl (Nat.le_refl _) (Nat.le_refl _) ?_ ?_ ?_ ?_ ?_ <;> rw [setPc_self]
  · cases c <;> cases less <;> nofun
  · cases c <;> cases less <;> nofun
  · rw [hpc]
    cases c <;> cases less <;> exact fun _ => id
  · rw [hpc]
    intro h₀ t₀ _ _ hs
    cases c with
    | one =>
      cases less with
      | true => trivial
      | false => exact .inr (taken_of_not_less (s := s) hs hless)
    | all x | loop x => exact hs.elim
  · intro x hx hle hcmp
    rw [hpc] at hcmp
    cases less with
    | true => cases c <;> trivial
    | false =>
      have hge : x ≤ s.h := taken_of_not_less hcmp hless
      cases c with
      | one => cases hx
      | all x' | loop x' => exact hge

omit [Fintype ι] in
/-- `h_.fetch_add(1)`. -/
theorem Follows.take (hf : Follows i h s) {what : Counter} {sleeper : Option ι} {c : Test}
    (hpc : s.pc i = .fetchAdd c) :
    Follows i ((.step i what sleeper, s) :: h) (s.addH.setPc i (.store c (word s.h))) := by
  have hta : takes i s (.step i what sleeper) = true := by simp [takes, hpc, Pc.isFetchAdd]
  refine hf.moves rfl (Nat.le_succ _) (Nat.le_refl _) ?_ ?_ ?_ ?_ ?_ <;> rw [setPc_self]
  · nofun
  · intro k hk
    obtain rfl := Option.some.inj hk
    exact .inr ⟨hta, rfl⟩
  · rw [hpc]
    exact fun _ => id
  · rw [hpc, tickets_takes rfl hta]
    intro h₀ t₀ hle _ hs
    cases c with
    | one => exact ⟨s.h, List.mem_cons_self, hle, Nat.lt_succ_self _⟩
    | all x | loop x => exact hs.elim
  · exact fun _ _ _ _ => trivial

omit [Fintype ι] in
/-- A step that has nothing to do with a test. -/
theorem Follows.quiet (hf : Follows i h s) {what : Counter} {sleeper : Option ι} {pc pc' : Pc}
    (hpc : s.pc i = pc) (hh : s'.h = s.h) (ht : s'.t = s.t) (hta : pc.isFetchAdd = false)
    (hk : ∀ k, pc'.ticket = some k → pc.ticket = some k) (hd : ∀ k, pc'.head = some k → pc.head = some k)
    (hs : ∀ x, pc'.since? = some x → pc.since? = some x)
    (hw : ∀ h₀ t₀ mine, pc.serves s.h s.t h₀ t₀ mine → pc'.serves s.h s.t h₀ t₀ mine)
    (hc : ∀ x, pc'.compares s'.h s'.t x) :
    Follows i ((.step i what sleeper, s) :: h) (s'.setPc i pc') := by
  have hta : takes i s (.step i what sleeper) = false := by simp [takes, hpc, hta]
  refine hf.moves rfl hh.ge ht.ge ?_ ?_ ?_ ?_ ?_ <;> rw [setPc_self]
  · rwa [hpc]
  · rw [hpc]
    exact fun k h => .inl ⟨hta, hd k h⟩
  · rwa [hpc]
  · rw [hpc, tickets_later rfl hta]
    change ∀ h₀ t₀, _ → _ → _ → pc'.serves s'.h s'.t h₀ t₀ _
    rw [hh, ht]
    exact fun h₀ t₀ _ _ => hw h₀ t₀ _
  · exact fun x _ _ _ => hc x

theorem Follows.next (hf : Follows i h s) {what : Counter} {sleeper : Option ι}
    (hok : (s.pc i).decides → Together s.h s.t) (hs : s.next i what sleeper = some s') :
    Follows i ((.step i what sleeper, s) :: h) s' := by
  unfold State.next at hs
  split at hs <;> rename_i hpc
  · cases hs
  · cases hs
  · cases hs
  · obtain rfl := Option.some.inj hs
    exact hf.quiet hpc rfl rfl rfl (fun _ => id) nofun nofun (fun _ _ _ => id) fun _ => trivial
  · obtain rfl := Option.some.inj hs
    split
    · exact hf.quiet hpc rfl rfl rfl (fun _ => id) nofun nofun (fun _ _ _ => id) fun _ => trivial
    · exact hf.quiet hpc rfl rfl rfl (fun _ => id) nofun nofun (fun _ _ _ => id) fun _ => trivial
  · split at hs
    · obtain rfl := Option.some.inj hs
      exact hf.quiet hpc rfl rfl rfl (fun _ => id) nofun nofun (fun _ _ _ => id) fun _ => trivial
    · cases hs
  · obtain rfl := Option.some.inj hs
    exact hf.quiet hpc rfl rfl rfl nofun nofun nofun (fun _ _ _ hs => hs.elim) fun _ => trivial
  · obtain rfl := Option.some.inj hs
    exact hf.load hpc hok
  · next v =>
    obtain rfl := Option.some.inj hs
    rw [hpc] at hok
    exact hf.test hpc ⟨rfl, hok trivial⟩
  · obtain rfl := Option.some.inj hs
    exact hf.test hpc rfl
  · obtain rfl := Option.some.inj hs
    exact hf.take hpc
  · next c head =>
    obtain rfl := Option.some.inj hs
    exact hf.quiet hpc rfl rfl rfl nofun (fun _ => id) (fun _ => id) (fun _ _ _ hs => by cases c <;> exact hs)
      fun _ => trivial
  · next c head =>
    obtain rfl := Option.some.inj hs
    exact hf.quiet hpc rfl rfl rfl nofun (fun _ => id) (fun _ => id) (fun _ _ _ hs => by cases c <;> exact hs)
      fun _ => trivial
  · obtain ⟨s₁, hw, rfl⟩ := Option.map_eq_some_iff.1 hs
    obtain ⟨hh, ht, -⟩ := wakeOne_eq hw
    exact hf.quiet hpc hh ht rfl nofun nofun nofun (fun _ _ _ hs => .inl hs) fun _ => trivial
  · next c head hc =>
    obtain rfl := Option.some.inj hs
    cases c with
    | one => exact absurd rfl hc
    | all x => exact hf.quiet hpc rfl rfl rfl nofun nofun (fun _ => id) (fun _ _ _ hs => hs.elim) fun _ => trivial
    | loop x => exact hf.quiet hpc rfl rfl rfl nofun nofun (fun _ => id) (fun _ _ _ hs => hs.elim) fun _ => trivial

theorem follows_step (hf : Follows i h s) (hok : testsTogether s a) (hs : step s a = some s') :
    Follows i ((a, s) :: h) s' := by
  cases a with
  | mutexLock j =>
    simp only [step] at hs
    split at hs
    · obtain rfl := Option.some.inj hs
      exact hf.stays rfl rfl (Nat.le_refl _) (Nat.le_refl _) (.inl rfl)
    · cases hs
  | mutexUnlock j =>
    simp only [step] at hs
    split at hs
    · obtain rfl := Option.some.inj hs
      exact hf.stays rfl rfl (Nat.le_refl _) (Nat.le_refl _) (.inl rfl)
    · cases hs
  | callWait j =>
    simp only [step] at hs
    split at hs
    · obtain rfl := Option.some.inj hs
      by_cases hj : i = j
      · subst hj
        refine Follows.begins (decide_eq_true rfl) (Nat.le_refl _) (Nat.le_succ _) ?_ ?_ ?_ ?_ ?_ <;> rw [setPc_self]
        · intro k hk
          exact ⟨rfl, (Option.some.inj hk).symm⟩
        · rfl
        · rintro _ ⟨⟩
        · rintro ⟨⟩
        · exact fun _ => trivial
      · exact hf.stays (by simp [calls, Ne.symm hj]) rfl (Nat.le_refl _) (Nat.le_succ _) (.inl (setPc_of_ne hj))
    · cases hs
  | callNotifyOne j =>
    simp only [step] at hs
    split at hs
    · obtain rfl := Option.some.inj hs
      by_cases hj : i = j
      · subst hj
        refine Follows.begins (decide_eq_true rfl) (Nat.le_refl _) (Nat.le_refl _) ?_ ?_ ?_ ?_ ?_ <;> rw [setPc_self]
        · rintro _ ⟨⟩
        · rfl
        · rintro _ ⟨⟩
        · exact fun _ => rfl
        · exact fun _ => trivial
      · exact hf.stays (by simp [calls, Ne.symm hj]) rfl (Nat.le_refl _) (Nat.le_refl _) (.inl (setPc_of_ne hj))
    · cases hs
  | callNotifyAll j =>
    simp only [step] at hs
    split at hs
    · obtain rfl := Option.some.inj hs
      by_cases hj : i = j
      · subst hj
        refine Follows.begins (decide_eq_true rfl) (Nat.le_refl _) (Nat.le_refl _) ?_ ?_ ?_ ?_ ?_ <;> rw [setPc_self]
        · rintro _ ⟨⟩
        · rfl
        · intro x hx
          exact ⟨rfl, (Option.some.inj hx).symm⟩
        · rintro ⟨⟩
        · exact fun _ => trivial
      · exact hf.stays (by simp [calls, Ne.symm hj]) rfl (Nat.le_refl _) (Nat.le_refl _) (.inl (setPc_of_ne hj))
    · cases hs
  | leaveNotifyAll j =>
    simp only [step] at hs
    split at hs
    · next since hpc =>
      obtain rfl := Option.some.inj hs
      by_cases hj : i = j
      · subst hj
        refine hf.moves rfl (Nat.le_refl _) (Nat.le_refl _) ?_ ?_ ?_ ?_ ?_ <;> rw [setPc_self]
        · rintro _ ⟨⟩
        · rintro _ ⟨⟩
        · rintro _ ⟨⟩
        · rw [hpc]
          exact fun _ _ _ _ hs => hs.elim
        · rintro _ ⟨⟩
      · exact hf.stays rfl rfl (Nat.le_refl _) (Nat.le_refl _) (.inl (setPc_of_ne hj))
    · cases hs
  | step j what sleeper =>
    by_cases hj : i = j
    · subst hj
      exact hf.next hok hs
    · obtain ⟨hh, ht, hpc⟩ := next_other hs hj
      exact hf.stays rfl (by simp [takes, Ne.symm hj]) hh ht hpc
  | spurious j =>
    simp only [step] at hs
    split at hs
    · next k hpc =>
      obtain rfl := Option.some.inj hs
      refine hf.stays rfl rfl (Nat.le_refl _) (Nat.le_refl _) ?_
      by_cases hj : i = j
      · subst hj
        rw [setPc_self, hpc]
        exact .inr rfl
      · exact .inl (setPc_of_ne hj)
    · cases hs

theorem follows_run (r : Run (system ι) testsTogether h s) (i : ι) : Follows i h s := by
  refine Run.invariant (I := fun h s => Follows i h s) ?_ (fun h s a s' hf => follows_step hf) r
  rintro s rfl
  exact ⟨nofun, nofun, nofun, nofun, nofun, nofun⟩

/-- In a run of any length in which no multiple of `2^32` lies above `h` and at most `t` when a load decides a test: a
`NotifyOne` that was called while a ticket was pending has returned only if it has taken a ticket that was pending then,
or others have taken all of them; a `NotifyAll` has returned only if all are taken that were pending when it was called;
and a waiter and the notifier of its ticket use the same slot. -/
theorem survives_wrap (r : Run (system ι) testsTogether h s) :
    (∀ i s₀, called i h = some (.callNotifyOne i, s₀) → s.pc i = .idle → s₀.h < s₀.t →
      (∃ k ∈ tickets i h, s₀.h ≤ k ∧ k < s₀.t) ∨ ∀ k, s₀.h ≤ k → k < s₀.t → k < s.h) ∧
    (∀ i since, s.pc i = .notifiedAll since → ∃ s₀, called i h = some (.callNotifyAll i, s₀) ∧
      ∀ k, s₀.h ≤ k → k < s₀.t → k < s.h) ∧
    ∀ i j k head, (s.pc i).ticket = some k → (s.pc j).head = some head →
      ∃ s₀ s₁, called i h = some (.callWait i, s₀) ∧ took j h = some s₁ ∧
        (s₀.t = s₁.h → k % kAtomicsSize = head % kAtomicsSize) := by
  refine ⟨fun i s₀ hc hpc _ => ?_, fun i since hpc => ?_, fun i j k head hi hj => ?_⟩
  · have hone := (follows_run r i).one s₀ hc
    rw [hpc] at hone
    rcases hone with ⟨k, hk, hle, hlt⟩ | hall
    · by_cases hkt : k < s₀.t
      · exact .inl ⟨k, hk, hle, hkt⟩
      · exact .inr fun k' _ hk' => by omega
    · exact .inr fun k _ hk => Nat.lt_of_lt_of_le hk hall
  · have hf := follows_run r i
    obtain ⟨s₀, hc, rfl⟩ := hf.since since (by rw [hpc]; rfl)
    have hle := hf.all s₀.t (by rw [hpc]; rfl)
    rw [hpc] at hle
    exact ⟨s₀, hc, fun k _ hk => Nat.lt_of_lt_of_le hk hle⟩
  · obtain ⟨s₀, hc, rfl⟩ := (follows_run r i).ticket k hi
    obtain ⟨s₁, ht, rfl⟩ := (follows_run r j).head head hj
    refine ⟨s₀, s₁, hc, ht, fun heq => ?_⟩
    rw [heq]

end follows

/-- Thread 0 waits, and threads 1 and 2 notify it. Thread 1 loads `h_` first, but thread 2 takes the ticket. -/
theorem survives_wrap_overtaken : ∃ h s, Run (system (Fin 3)) testsTogether h s ∧
    ∃ s₀, called 1 h = some (.callNotifyOne 1, s₀) ∧ (s₀.pc 0 = .parked 0 ∧ s₀.h = 0 ∧ s₀.t = 1) ∧
      (s.pc 1 = .idle ∧ tickets 1 h = [1] ∧ tickets 2 h = [0]) ∧
      ((∃ k ∈ tickets 1 h, s₀.h ≤ k ∧ k < s₀.t) ∨ ∀ k, s₀.h ≤ k → k < s₀.t → k < s.h) := by
  have r : Run (system (Fin 3)) testsTogether [] init := .init rfl
  have r := r.step (a := Act.mutexLock 0) trivial rfl
  have r := r.step (a := Act.callWait 0) trivial rfl
  have r := r.step (a := Act.step 0 .head none) nofun rfl
  have r := r.step (a := Act.step 0 .head none) nofun rfl
  have r := r.step (a := Act.callNotifyOne 1) trivial rfl
  have r := r.step (a := Act.step 1 .head none) (fun _ _ => rfl) rfl
  have r := r.step (a := Act.callNotifyOne 2) trivial rfl
  have r := r.step (a := Act.step 2 .tail none) (fun _ _ => rfl) rfl
  have r := r.step (a := Act.step 2 .head none) nofun rfl
  have r := r.step (a := Act.step 2 .head none) nofun rfl
  have r := r.step (a := Act.step 1 .tail none) (fun _ _ => rfl) rfl
  have r := r.step (a := Act.step 2 .head none) nofun rfl
  have r := r.step (a := Act.step 2 .head none) nofun rfl
  have r := r.step (a := Act.step 2 .head (some 0)) nofun rfl
  have r := r.step (a := Act.step 1 .head none) nofun rfl
  have r := r.step (a := Act.step 1 .head none) nofun rfl
  have r := r.step (a := Act.step 1 .head none) nofun rfl
  have r := r.step (a := Act.step 1 .head none) nofun rfl
  exact ⟨_, _, r, _, rfl, ⟨rfl, rfl, rfl⟩, ⟨rfl, rfl, rfl⟩, (survives_wrap r).1 1 _ rfl rfl Nat.zero_lt_one⟩

/-! ### A wrap -/

/-- All threads rest; `n` tickets were taken and notified. -/
def rested (n : Nat) : State (Fin 2) := ⟨n, n, fun _ => 0, none, fun _ => .idle⟩

/-- Thread `0` waits for ticket `n` and thread `1` notifies it. -/
def round : List (Act (Fin 2)) :=
  [.mutexLock 0, .callWait 0, .step 0 .head none, .callNotifyOne 1, .step 1 .head none, .step 1 .head none,
    .step 1 .head none, .step 1 .head none, .step 1 .head none, .step 1 .head none, .step 0 .head none,
    .step 0 .head none, .step 0 .head none, .mutexUnlock 0]

theorem exec_round {n : Nat} (hn : n + 1 < 2 ^ 32) :
    exec (system (Fin 2)) noCheck (rested n) round = some (rested (n + 1)) := by
  have hw : word n = n := word_of_lt (by omega)
  have hw' : word (n + 1) = n + 1 := word_of_lt hn
  simp [exec_cons, exec_nil, round, rested, system, step, noCheck, State.next, State.setPc, State.setOwner,
    State.setSlot, State.slot, State.addT, State.addH, State.wakeOne, Test.next, Pc.sleepsOn, Fin.forall_fin_succ, hw,
    hw']
  exact funext (Fin.forall_fin_two.2 ⟨rfl, rfl⟩)

theorem reach_rested {n : Nat} (hn : n < 2 ^ 32) : Reach (system (Fin 2)) anyStep (rested n) := by
  induction n with
  | zero => exact .init rfl
  | succ n ih => exact (ih (by omega)).exec (fun _ _ _ => trivial) (exec_round hn)

/-- `t_` has just wrapped to `0`: `NotifyOne` returns and the only waiter, whose ticket is pending, stays asleep on an
empty slot. -/
theorem wraps : ∃ h s, Run (system (Fin 2)) anyStep h s ∧ ∃ s₀, called 1 h = some (.callNotifyOne 1, s₀) ∧
    s₀.pc 0 = .parked (2 ^ 32 - 1) ∧ s₀.h = 2 ^ 32 - 1 ∧ s₀.t = 2 ^ 32 ∧
    s.pc 1 = .idle ∧ s.h = s₀.h ∧ s.pc 0 = .parked (2 ^ 32 - 1) ∧ s.slot (2 ^ 32 - 1) = 0 := by
  obtain ⟨h, r⟩ := reach_rested (n := 2 ^ 32 - 1) (by omega)
  have r := r.step (a := Act.mutexLock 0) trivial rfl
  have r := r.step (a := Act.callWait 0) trivial rfl
  have r := r.step (a := Act.step 0 .head none) trivial rfl
  have r := r.step (a := Act.step 0 .head none) trivial rfl
  have r := r.step (a := Act.callNotifyOne 1) trivial rfl
  have r := r.step (a := Act.step 1 .head none) trivial rfl
  have r := r.step (a := Act.step 1 .head none) trivial rfl
  exact ⟨_, _, r, _, rfl, rfl, rfl, rfl, rfl, rfl, rfl, rfl⟩

end Stdlike.CondVar
