import ConcurrencyCourse.Lib.Transition
import Mathlib.Logic.Function.Basic
import Mathlib.Data.List.Basic
import Mathlib.Order.Basic
import Mathlib.Data.Nat.Basic

/-!
# `QueueSpinLock` (tasks/mutex/queue/queue_spinlock.hpp)

A thread constructs a `Guard` at an address where there is none, goes through `Acquire`, holds the lock, goes
through `Release`, and destroys the `Guard`; then the address may be used again. Each `Guard` that is ever
constructed has its own number, which a pointer to it carries along: no step of the code looks at it.

| here | there |
| --- | --- |
| `Ref` | `Guard*` |
| `Cell` | `next_`, `is_owner_` (53-54) |
| `Place.storeOwner` … `Place.spin` | `Acquire` (61-72) |
| `Place.loadNext` … `Place.handOver` | `Release` (74-85) |

A thread that would have two `Guard`s of the lock at once is two threads here.

`Pc.queued` also says which of all the `tail_.exchange`s was the one of this `Guard`. The queue is a stretch of
these numbers: all that were exchanged, less those that were released (`Inv.ticket`, `Inv.here`).
`spinlock_correct` is the main theorem.
-/

namespace Mutex.QueueSpinLock

open Transition Function

structure Ref (A : Type) where
  addr : A
  /-- Which `Guard` it was made for. -/
  inst : Nat
  deriving DecidableEq, Repr

structure Cell (A : Type) where
  next : Option (Ref A)
  isOwner : Bool
  deriving DecidableEq, Repr

inductive Place (A : Type) where
  -- `is_owner_.store(prev_tail == nullptr)`, `prev_tail->next_.store(waiter)`, `is_owner_.load()`
  | storeOwner (prev : Option (Ref A))
  | link (prev : Ref A)
  | spin
  | critical
  -- `next_.load() == nullptr`, `compare_exchange_strong`, `next_.load()`, `is_owner_.store(true)`
  | loadNext
  | cas
  | loadNextAgain
  | handOver (next : Ref A)
  deriving DecidableEq, Repr

inductive Pc (A : Type) where
  | idle
  -- the `Guard` is constructed, before `tail_.exchange`
  | made (g : Ref A)
  -- from the exchange to the end of `Release`'s effect
  | queued (g : Ref A) (ticket : Nat) (p : Place A)
  -- before the destructor returns
  | released (g : Ref A)
  deriving DecidableEq, Repr

structure State (A ι : Type) where
  tail : Option (Ref A)
  mem : A → Cell A
  /-- The number of the `Guard` at an address. -/
  live : A → Option Nat
  /-- How many were constructed. -/
  made : Nat
  pc : ι → Pc A
  /-- Who has exchanged, in order. -/
  exchanged : List ι
  /-- Who has acquired the lock, in order. -/
  acquired : List ι
  /-- How many have released it. -/
  released : Nat

inductive Act (A ι : Type) where
  | construct (i : ι) (a : A)
  | destroy (i : ι)
  | step (i : ι)

section model

variable {A ι : Type} [DecidableEq A] [DecidableEq ι]

def State.cell (s : State A ι) (g : Ref A) : Cell A := s.mem g.addr

def State.setPc (s : State A ι) (i : ι) (p : Pc A) : State A ι := { s with pc := update s.pc i p }

def State.setNext (s : State A ι) (g : Ref A) (x : Option (Ref A)) : State A ι :=
  { s with mem := update s.mem g.addr { s.mem g.addr with next := x } }

def State.setOwner (s : State A ι) (g : Ref A) (b : Bool) : State A ι :=
  { s with mem := update s.mem g.addr { s.mem g.addr with isOwner := b } }

/-- `Release` has had its effect. -/
def State.release (s : State A ι) (i : ι) (g : Ref A) : State A ι :=
  { s with released := s.released + 1 }.setPc i (.released g)

def placeStep (s : State A ι) (i : ι) (g : Ref A) (n : Nat) : Place A → Option (State A ι)
  | .storeOwner none => some ((s.setOwner g true).setPc i (.queued g n .spin))
  | .storeOwner (some prev) => some ((s.setOwner g false).setPc i (.queued g n (.link prev)))
  | .link prev => some ((s.setNext prev (some g)).setPc i (.queued g n .spin))
  | .spin =>
    if (s.cell g).isOwner then
      some ({ s with acquired := s.acquired ++ [i] }.setPc i (.queued g n .critical))
    else some s
  | .critical => none
  | .loadNext => match (s.cell g).next with
    | none => some (s.setPc i (.queued g n .cas))
    | some _ => some (s.setPc i (.queued g n .loadNextAgain))
  | .cas =>
    if s.tail.map Ref.addr = some g.addr then some ({ s with tail := none }.release i g)
    else some (s.setPc i (.queued g n .loadNext))
  | .loadNextAgain => match (s.cell g).next with
    | none => none
    | some next => some (s.setPc i (.queued g n (.handOver next)))
  | .handOver next => some ((s.setOwner next true).release i g)

def step (s : State A ι) : Act A ι → Option (State A ι)
  | .construct i a => match s.pc i, s.live a with
    | .idle, none =>
      some ({ s with
        mem := update s.mem a ⟨none, false⟩
        live := update s.live a (some s.made)
        made := s.made + 1 }.setPc i (.made ⟨a, s.made⟩))
    | _, _ => none
  | .destroy i => match s.pc i with
    | .queued g n .critical => some (s.setPc i (.queued g n .loadNext))
    | _ => none
  | .step i => match s.pc i with
    | .idle => none
    | .made g =>
      some ({ s with tail := some g, exchanged := s.exchanged ++ [i] }.setPc i
        (.queued g s.exchanged.length (.storeOwner s.tail)))
    | .queued g n p => placeStep s i g n p
    | .released g => some ({ s with live := update s.live g.addr none }.setPc i .idle)

def init : State A ι :=
  { tail := none
    mem := fun _ => ⟨none, false⟩
    live := fun _ => none
    made := 0
    pc := fun _ => .idle
    exchanged := []
    acquired := []
    released := 0 }

variable (A ι) in
def system : System (State A ι) (Act A ι) := ⟨fun s => s = init, step⟩

end model

/-! ### The queue -/

def Pc.guard {A : Type} : Pc A → Option (Ref A)
  | .idle => none
  | .made g | .queued g _ _ | .released g => some g

/-- In the lock: past the loop of `Acquire`, before the end of `Release`'s effect. -/
def Place.holds {A : Type} : Place A → Bool
  | .storeOwner _ | .link _ | .spin => false
  | _ => true

section invariant

variable {A ι : Type}

/-- The `Guard` behind `g` in the queue, at `g'`, has set the pointer to it, or is about to. -/
def Joined (s : State A ι) (g g' : Ref A) (p' : Place A) : Prop :=
  (p' = .storeOwner (some g) ∨ p' = .link g) ∧ (s.cell g).next = none ∨
    p' = .spin ∧ (s.cell g).next = some g'

/-- What the first in the queue is doing. -/
def Leads (s : State A ι) (g : Ref A) (p : Place A) : Prop :=
  p = .storeOwner none ∨ (s.cell g).isOwner = true ∧ (p = .spin ∨ p.holds = true)

/-- What `Release` has found in `next_` is still there. -/
def Found (s : State A ι) (g : Ref A) : Place A → Prop
  | .loadNextAgain => (s.cell g).next ≠ none
  | .handOver next => (s.cell g).next = some next
  | _ => True

structure Inv (s : State A ι) : Prop where
  live : ∀ i g, (s.pc i).guard = some g → s.live g.addr = some g.inst
  unique : ∀ i j g, (s.pc i).guard = some g → (s.pc j).guard = some g → i = j
  fresh : ∀ i g, s.pc i = .made g → s.cell g = ⟨none, false⟩
  /-- Whoever is queued has exchanged, and was not released. -/
  ticket : ∀ i g n p, s.pc i = .queued g n p → s.exchanged[n]? = some i ∧ s.released ≤ n
  here : ∀ i n, s.released ≤ n → s.exchanged[n]? = some i → ∃ g p, s.pc i = .queued g n p
  le : s.released ≤ s.exchanged.length
  empty : s.released = s.exchanged.length → s.tail = none
  last : ∀ i g n p, s.pc i = .queued g n p → n + 1 = s.exchanged.length →
    s.tail = some g ∧ (s.cell g).next = none
  joined : ∀ i j g g' n p p', s.pc i = .queued g n p → s.pc j = .queued g' (n + 1) p' → Joined s g g' p'
  leads : ∀ i g p, s.pc i = .queued g s.released p → Leads s g p
  waits : ∀ i g n p, s.pc i = .queued g n p → s.released < n → (s.cell g).isOwner = false
  found : ∀ i g n p, s.pc i = .queued g n p → Found s g p
  fifo : s.acquired <+: s.exchanged
  acquired : s.acquired.length = s.released ∨ s.acquired.length = s.released + 1
  holder : ∀ i g p, s.pc i = .queued g s.released p → (p.holds = true ↔ s.acquired.length = s.released + 1)

end invariant

/-! ### Cells -/

section cells

variable {A ι : Type} [DecidableEq A] {s : State A ι} {g r : Ref A}

theorem cell_setOwner_of_ne {b : Bool} (h : r.addr ≠ g.addr) : (s.setOwner g b).cell r = s.cell r :=
  update_of_ne h ..

theorem isOwner_setOwner {b : Bool} : ((s.setOwner g b).cell g).isOwner = b := by
  change (update s.mem g.addr _ g.addr).isOwner = b
  rw [update_self]

theorem next_setOwner {b : Bool} : ((s.setOwner g b).cell r).next = (s.cell r).next := by
  change (update s.mem g.addr { s.mem g.addr with isOwner := b } r.addr).next = (s.mem r.addr).next
  by_cases h : r.addr = g.addr
  · rw [h, update_self]
  · rw [update_of_ne h]

theorem cell_setNext_of_ne {x : Option (Ref A)} (h : r.addr ≠ g.addr) : (s.setNext g x).cell r = s.cell r :=
  update_of_ne h ..

theorem next_setNext {x : Option (Ref A)} : ((s.setNext g x).cell g).next = x := by
  change (update s.mem g.addr _ g.addr).next = x
  rw [update_self]

theorem isOwner_setNext {x : Option (Ref A)} : ((s.setNext g x).cell r).isOwner = (s.cell r).isOwner := by
  change (update s.mem g.addr { s.mem g.addr with next := x } r.addr).isOwner = (s.mem r.addr).isOwner
  by_cases h : r.addr = g.addr
  · rw [h, update_self]
  · rw [update_of_ne h]

end cells

/-! ### Places in the queue -/

section places

variable {A ι : Type} {s : State A ι} {i j : ι} {g g' : Ref A} {n m : Nat} {p p' : Place A}

theorem guard_of_queued (h : s.pc i = .queued g n p) : (s.pc i).guard = some g := by
  rw [h]
  rfl

theorem Inv.addr_ne (h : Inv s) (hij : i ≠ j) (hi : (s.pc i).guard = some g) (hj : (s.pc j).guard = some g') :
    g.addr ≠ g'.addr := by
  intro he
  have h1 := h.live i g hi
  have h2 := h.live j g' hj
  rw [he, h2] at h1
  have hg : g' = g := by
    obtain ⟨a, n⟩ := g
    obtain ⟨a', n'⟩ := g'
    cases Option.some.inj h1
    cases he
    rfl
  rw [hg] at hj
  exact hij (h.unique i j g hi hj)

/-- Two with the same ticket are one. -/
theorem Inv.ticket_unique (h : Inv s) (hi : s.pc i = .queued g n p) (hj : s.pc j = .queued g' n p') : i = j :=
  Option.some.inj ((h.ticket i g n p hi).1.symm.trans (h.ticket j g' n p' hj).1)

theorem Inv.ticket_lt (h : Inv s) (hi : s.pc i = .queued g n p) : n < s.exchanged.length :=
  (List.getElem?_eq_some_iff.1 (h.ticket i g n p hi).1).1

/-- There is somebody at each place of the queue. -/
theorem Inv.exists_queued (h : Inv s) (h1 : s.released ≤ n) (h2 : n < s.exchanged.length) :
    ∃ i g p, s.pc i = .queued g n p := by
  obtain ⟨g, p, hi⟩ := h.here (s.exchanged[n]) n h1 (List.getElem?_eq_getElem h2)
  exact ⟨_, g, p, hi⟩

/-- Whoever is not the first has somebody in front. -/
theorem Inv.pred (h : Inv s) (hi : s.pc i = .queued g n p) (hn : s.released < n) :
    ∃ j g' m p', s.pc j = .queued g' m p' ∧ n = m + 1 ∧ Joined s g' g p := by
  obtain ⟨m, rfl⟩ := Nat.exists_eq_add_of_lt hn
  have hlt := h.ticket_lt hi
  obtain ⟨j, g', p', hj⟩ := h.exists_queued (n := s.released + m) (Nat.le_add_right ..) (by omega)
  exact ⟨j, g', _, p', hj, rfl, h.joined j i g' g _ p' p hj hi⟩

/-- Whoever holds the lock is the first. -/
theorem Inv.first_of_holds (h : Inv s) (hi : s.pc i = .queued g n p) (hp : p.holds = true) : n = s.released := by
  by_contra hne
  have hle := (h.ticket i g n p hi).2
  obtain ⟨j, g', m, p', -, -, ⟨rfl | rfl, -⟩ | ⟨rfl, -⟩⟩ := h.pred hi (Nat.lt_of_le_of_ne hle (Ne.symm hne))
  · cases hp
  · cases hp
  · cases hp

theorem Inv.first_of_owner (h : Inv s) (hi : s.pc i = .queued g n p) (hp : (s.cell g).isOwner = true) :
    n = s.released := by
  by_contra hne
  have hle := (h.ticket i g n p hi).2
  rw [h.waits i g n p hi (Nat.lt_of_le_of_ne hle (Ne.symm hne))] at hp
  cases hp

end places

section step

variable {A ι : Type} [DecidableEq ι] {s s' : State A ι} {i j : ι} {g g' : Ref A} {n : Nat} {p p' : Place A}
  {q : Pc A}

theorem pc_cases (hpc : s'.pc = update s.pc i q) (j : ι) :
    j = i ∧ s'.pc j = q ∨ j ≠ i ∧ s'.pc j = s.pc j := by
  rw [hpc]
  rcases eq_or_ne j i with rfl | hj
  · exact .inl ⟨rfl, update_self ..⟩
  · exact .inr ⟨hj, update_of_ne hj ..⟩

/-- Whoever is at a place of the queue was there before, or is the one that went on. -/
theorem back_cases (hpc : s'.pc = update s.pc i (.queued g n p')) {r : Ref A} {m : Nat} {p₁ : Place A}
    (hj : s'.pc j = .queued r m p₁) :
    (j = i ∧ r = g ∧ m = n ∧ p₁ = p') ∨ (j ≠ i ∧ s.pc j = .queued r m p₁) := by
  rcases pc_cases hpc j with ⟨rfl, he⟩ | ⟨hji, he⟩
  · rw [he] at hj
    cases hj
    exact .inl ⟨rfl, rfl, rfl, rfl⟩
  · exact .inr ⟨hji, he ▸ hj⟩

theorem guard_same (hpc : s'.pc = update s.pc i q) (hq : q.guard = (s.pc i).guard) (j : ι) :
    (s'.pc j).guard = (s.pc j).guard := by
  rcases pc_cases hpc j with ⟨rfl, he⟩ | ⟨-, he⟩
  · rw [he, hq]
  · rw [he]

/-- The queue is the same when one in it goes on. -/
theorem Inv.here_place (h : Inv s) (hi : s.pc i = .queued g n p) (hpc : s'.pc = update s.pc i (.queued g n p'))
    {m : Nat} (hm : s.released ≤ m) (hjm : s.exchanged[m]? = some j) : ∃ r p₁, s'.pc j = .queued r m p₁ := by
  obtain ⟨r, p₁, hj⟩ := h.here j m hm hjm
  rcases pc_cases hpc j with ⟨rfl, he⟩ | ⟨-, he⟩
  · rw [hi] at hj
    cases hj
    exact ⟨g, p', he⟩
  · exact ⟨r, p₁, he.trans hj⟩

omit [DecidableEq ι] in
theorem Joined.congr (h : Joined s g g' p) (hn : (s'.cell g).next = (s.cell g).next) : Joined s' g g' p := by
  unfold Joined
  rwa [hn]

omit [DecidableEq ι] in
theorem Found.congr (h : Found s g p) (hn : (s'.cell g).next = (s.cell g).next) : Found s' g p := by
  cases p with
  | loadNextAgain =>
    change (s'.cell g).next ≠ none
    rw [hn]
    exact h
  | handOver next =>
    change (s'.cell g).next = some next
    rw [hn]
    exact h
  | _ => exact trivial

/-- A thread in the queue goes on; at most its own `is_owner_` changes. -/
theorem Inv.place (h : Inv s) (hi : s.pc i = .queued g n p) (hpc : s'.pc = update s.pc i (.queued g n p'))
    (hlive : s'.live = s.live) (htail : s'.tail = s.tail) (hex : s'.exchanged = s.exchanged)
    (hrel : s'.released = s.released) (hnext : ∀ r, (s'.cell r).next = (s.cell r).next)
    (howner : ∀ j r, j ≠ i → (s.pc j).guard = some r → (s'.cell r).isOwner = (s.cell r).isOwner)
    (hjoined : s.released < n → ∀ r, Joined s r g p → Joined s r g p')
    (hleads : n = s.released → Leads s' g p') (hwaits : s.released < n → (s'.cell g).isOwner = false)
    (hfound : Found s g p') (hfifo : s'.acquired <+: s.exchanged)
    (hacq : s'.acquired.length = s.released ∨ s'.acquired.length = s.released + 1)
    (hholder : n = s.released → (p'.holds = true ↔ s'.acquired.length = s.released + 1))
    (hothers : n = s.released ∨ s'.acquired = s.acquired) : Inv s' := by
  have hguard := guard_same hpc (guard_of_queued hi).symm
  refine ⟨?_, ?_, ?_, ?_, ?_, ?_, ?_, ?_, ?_, ?_, ?_, ?_, ?_, ?_, ?_⟩
  · intro j r hj
    rw [hlive]
    exact h.live j r (hguard j ▸ hj)
  · intro j k r hj hk
    exact h.unique j k r (hguard j ▸ hj) (hguard k ▸ hk)
  · intro j r hj
    rcases pc_cases hpc j with ⟨rfl, he⟩ | ⟨hji, he⟩
    · rw [he] at hj
      cases hj
    · rw [he] at hj
      have hcell := h.fresh j r hj
      have hr : (s.pc j).guard = some r := by rw [hj]; rfl
      have h1 := hnext r
      have h2 := howner j r hji hr
      rw [hcell] at h1 h2
      cases hc : s'.cell r
      rw [hc] at h1 h2
      cases h1
      cases h2
      rfl
  · intro j r m p₁ hj
    rw [hex, hrel]
    rcases back_cases hpc hj with ⟨rfl, rfl, rfl, rfl⟩ | ⟨-, hj'⟩
    · exact h.ticket _ _ _ _ hi
    · exact h.ticket _ _ _ _ hj'
  · intro j m hm hjm
    rw [hex] at hjm
    rw [hrel] at hm
    exact h.here_place hi hpc hm hjm
  · rw [hex, hrel]
    exact h.le
  · rw [hex, hrel, htail]
    exact h.empty
  · intro j r m p₁ hj hm
    rw [hex] at hm
    rw [htail, hnext]
    rcases back_cases hpc hj with ⟨rfl, rfl, rfl, rfl⟩ | ⟨-, hj'⟩
    · exact h.last _ _ _ _ hi hm
    · exact h.last _ _ _ _ hj' hm
  · intro j k r r' m p₁ p₂ hj hk
    rcases back_cases hpc hk with ⟨rfl, rfl, rfl, rfl⟩ | ⟨hki, hk'⟩
    · rcases back_cases hpc hj with ⟨-, -, hm, -⟩ | ⟨-, hj'⟩
      · exact absurd hm (Nat.ne_of_lt (Nat.lt_succ_self m))
      · have hlt : s.released < m + 1 := Nat.lt_succ_of_le (h.ticket _ _ _ _ hj').2
        exact (hjoined hlt r (h.joined _ _ _ _ _ _ _ hj' hi)).congr (hnext r)
    · rcases back_cases hpc hj with ⟨rfl, rfl, rfl, rfl⟩ | ⟨-, hj'⟩
      · exact (h.joined _ _ _ _ _ _ _ hi hk').congr (hnext r)
      · exact (h.joined _ _ _ _ _ _ _ hj' hk').congr (hnext r)
  · intro j r p₁ hj
    rw [hrel] at hj
    rcases back_cases hpc hj with ⟨rfl, rfl, hn, rfl⟩ | ⟨hji, hj'⟩
    · exact hleads hn.symm
    · have hlead := h.leads _ _ _ hj'
      unfold Leads at hlead ⊢
      rwa [howner j r hji (guard_of_queued hj')]
  · intro j r m p₁ hj hm
    rw [hrel] at hm
    rcases back_cases hpc hj with ⟨rfl, rfl, rfl, rfl⟩ | ⟨hji, hj'⟩
    · exact hwaits hm
    · rw [howner j r hji (guard_of_queued hj')]
      exact h.waits _ _ _ _ hj' hm
  · intro j r m p₁ hj
    rcases back_cases hpc hj with ⟨rfl, rfl, rfl, rfl⟩ | ⟨-, hj'⟩
    · exact hfound.congr (hnext r)
    · exact (h.found _ _ _ _ hj').congr (hnext r)
  · rw [hex]
    exact hfifo
  · rw [hrel]
    exact hacq
  · intro j r p₁ hj
    rw [hrel] at hj ⊢
    rcases back_cases hpc hj with ⟨rfl, rfl, hn, rfl⟩ | ⟨hji, hj'⟩
    · exact hholder hn.symm
    · rcases hothers with hn | he
      · rw [hn] at hi
        exact absurd (h.ticket_unique hj' hi) hji
      · rw [he]
        exact h.holder _ _ _ hj'

/-- The holder of the lock goes on. -/
theorem Inv.inLock (h : Inv s) (hi : s.pc i = .queued g n p) (hp : p.holds = true) (hp' : p'.holds = true)
    (hfound : Found s g p') : Inv (s.setPc i (.queued g n p')) := by
  have hn := h.first_of_holds hi hp
  subst hn
  refine h.place hi rfl rfl rfl rfl rfl (fun _ => rfl) (fun _ _ _ _ => rfl) ?_ ?_ ?_ hfound h.fifo h.acquired
    ?_ (.inl rfl)
  · exact fun hlt => absurd hlt (Nat.lt_irrefl _)
  · intro
    rcases h.leads i g p hi with rfl | ⟨howner, -⟩
    · cases hp
    · exact .inr ⟨howner, .inr hp'⟩
  · exact fun hlt => absurd hlt (Nat.lt_irrefl _)
  · exact fun _ => iff_of_true hp' ((h.holder i g p hi).1 hp)

/-- The first in the queue finds that it is the owner. -/
theorem Inv.acquire (h : Inv s) (hi : s.pc i = .queued g n .spin) (howner : (s.cell g).isOwner = true) :
    Inv ({ s with acquired := s.acquired ++ [i] }.setPc i (.queued g n .critical)) := by
  have hn := h.first_of_owner hi howner
  subst hn
  have hlen : s.acquired.length = s.released := by
    refine h.acquired.resolve_right fun he => ?_
    cases (h.holder i g .spin hi).2 he
  have hlen' : (s.acquired ++ [i]).length = s.released + 1 := by
    rw [List.length_append, hlen]
    rfl
  refine h.place hi rfl rfl rfl rfl rfl (fun _ => rfl) (fun _ _ _ _ => rfl) ?_ ?_ ?_ trivial ?_ (.inr hlen')
    ?_ (.inl rfl)
  · exact fun hlt => absurd hlt (Nat.lt_irrefl _)
  · exact fun _ => .inr ⟨howner, .inr rfl⟩
  · exact fun hlt => absurd hlt (Nat.lt_irrefl _)
  · -- the next one to acquire is the next one that exchanged
    have hnext : s.exchanged[s.acquired.length]? = some i := by
      rw [hlen]
      exact (h.ticket i g _ _ hi).1
    obtain ⟨rest, hrest⟩ := h.fifo
    rw [← hrest, List.getElem?_append_right (Nat.le_refl _), Nat.sub_self] at hnext
    cases rest with
    | nil => cases hnext
    | cons j rest =>
      cases hnext
      rw [← hrest]
      exact ⟨rest, List.append_assoc ..⟩
  · exact fun _ => iff_of_true rfl hlen'

variable [DecidableEq A]

theorem Inv.storeOwner_none (h : Inv s) (hi : s.pc i = .queued g n (.storeOwner none)) :
    Inv ((s.setOwner g true).setPc i (.queued g n .spin)) := by
  have hn : n = s.released := by
    by_contra hne
    have hle := (h.ticket i g n _ hi).2
    obtain ⟨j, g', m, p', -, -, ⟨he | he, -⟩ | ⟨he, -⟩⟩ := h.pred hi (Nat.lt_of_le_of_ne hle (Ne.symm hne))
    · cases he
    · cases he
    · cases he
  subst hn
  refine h.place hi rfl rfl rfl rfl rfl (fun _ => next_setOwner) ?_ ?_ ?_ ?_ trivial h.fifo h.acquired ?_
    (.inl rfl)
  · intro j r hj hr
    exact congrArg Cell.isOwner (cell_setOwner_of_ne (h.addr_ne hj hr (guard_of_queued hi)))
  · exact fun hlt => absurd hlt (Nat.lt_irrefl _)
  · exact fun _ => .inr ⟨isOwner_setOwner, .inl rfl⟩
  · exact fun hlt => absurd hlt (Nat.lt_irrefl _)
  · exact fun _ => iff_of_false nofun fun he => Bool.noConfusion ((h.holder i g _ hi).2 he)

theorem Inv.storeOwner_some (h : Inv s) {prev : Ref A} (hi : s.pc i = .queued g n (.storeOwner (some prev))) :
    Inv ((s.setOwner g false).setPc i (.queued g n (.link prev))) := by
  have hn : n ≠ s.released := by
    rintro rfl
    rcases h.leads i g _ hi with he | ⟨-, he | he⟩
    · cases he
    · cases he
    · cases he
  refine h.place hi rfl rfl rfl rfl rfl (fun _ => next_setOwner) ?_ ?_ ?_ ?_ trivial h.fifo h.acquired ?_
    (.inr rfl)
  · intro j r hj hr
    exact congrArg Cell.isOwner (cell_setOwner_of_ne (h.addr_ne hj hr (guard_of_queued hi)))
  · rintro - r (⟨he | he, hnone⟩ | ⟨he, -⟩)
    · cases he
      exact .inl ⟨.inr rfl, hnone⟩
    · cases he
    · cases he
  · exact fun he => absurd he hn
  · exact fun _ => isOwner_setOwner
  · exact fun he => absurd he hn

/-- The predecessor, which cannot leave before, gets the pointer. -/
theorem Inv.link (h : Inv s) {prev : Ref A} (hi : s.pc i = .queued g n (.link prev)) :
    Inv ((s.setNext prev (some g)).setPc i (.queued g n .spin)) := by
  have hn : n ≠ s.released := by
    rintro rfl
    rcases h.leads i g _ hi with he | ⟨-, he | he⟩
    · cases he
    · cases he
    · cases he
  have hlt : s.released < n := Nat.lt_of_le_of_ne (h.ticket i g n _ hi).2 hn.symm
  obtain ⟨k, gk, m, pk, hk, rfl, hjoin⟩ := h.pred hi hlt
  obtain ⟨rfl, hnone⟩ : prev = gk ∧ (s.cell gk).next = none := by
    rcases hjoin with ⟨he | he, hnone⟩ | ⟨he, -⟩
    · cases he
    · cases he
      exact ⟨rfl, hnone⟩
    · cases he
  set s' := (s.setNext prev (some g)).setPc i (.queued g (m + 1) .spin) with hs'
  have hpc : s'.pc = update s.pc i (.queued g (m + 1) .spin) := rfl
  have hguard := guard_same hpc (guard_of_queued hi).symm
  have howner : ∀ r, (s'.cell r).isOwner = (s.cell r).isOwner := fun r => isOwner_setNext
  -- only the predecessor's cell has changed
  have hcell : ∀ j r, j ≠ k → (s.pc j).guard = some r → s'.cell r = s.cell r :=
    fun j r hjk hr => cell_setNext_of_ne (h.addr_ne hjk hr (guard_of_queued hk))
  have hself : (s'.cell prev).next = some g := next_setNext
  refine ⟨?_, ?_, ?_, ?_, ?_, h.le, h.empty, ?_, ?_, ?_, ?_, ?_, h.fifo, h.acquired, ?_⟩
  · intro j r hj
    exact h.live j r (hguard j ▸ hj)
  · intro j j' r hj hj'
    exact h.unique j j' r (hguard j ▸ hj) (hguard j' ▸ hj')
  · intro j r hj
    rcases pc_cases hpc j with ⟨rfl, he⟩ | ⟨-, he⟩
    · rw [he] at hj
      cases hj
    · rw [he] at hj
      have hjk : j ≠ k := by
        rintro rfl
        rw [hk] at hj
        cases hj
      rw [hcell j r hjk (by rw [hj]; rfl)]
      exact h.fresh j r hj
  · intro j r m' p₁ hj
    rcases back_cases hpc hj with ⟨rfl, rfl, rfl, rfl⟩ | ⟨-, hj'⟩
    · exact h.ticket _ _ _ _ hi
    · exact h.ticket _ _ _ _ hj'
  · intro j m' hm hjm
    exact h.here_place hi hpc hm hjm
  · intro j r m' p₁ hj hm
    have hne : j ≠ k := by
      rintro rfl
      rcases back_cases hpc hj with ⟨rfl, -, rfl, -⟩ | ⟨-, hj'⟩
      · rw [hi] at hk
        cases hk
      · rw [hk] at hj'
        cases hj'
        have := h.ticket_lt hi
        change m + 1 = s.exchanged.length at hm
        omega
    rcases back_cases hpc hj with ⟨rfl, rfl, rfl, rfl⟩ | ⟨-, hj'⟩
    · rw [hcell _ _ hne (guard_of_queued hi)]
      exact h.last _ _ _ _ hi hm
    · rw [hcell _ _ hne (guard_of_queued hj')]
      exact h.last _ _ _ _ hj' hm
  · intro j j' r r' m' p₁ p₂ hj hj'
    rcases back_cases hpc hj' with ⟨rfl, rfl, hm, rfl⟩ | ⟨hj'i, hj''⟩
    · -- the thread and its predecessor
      cases hm
      rcases back_cases hpc hj with ⟨-, -, hm, -⟩ | ⟨-, hj₁⟩
      · exact absurd hm (Nat.ne_of_lt (Nat.lt_succ_self m))
      · have hjk : j = k := h.ticket_unique hj₁ hk
        subst hjk
        rw [hk] at hj₁
        cases hj₁
        exact .inr ⟨rfl, hself⟩
    · rcases back_cases hpc hj with ⟨rfl, rfl, rfl, rfl⟩ | ⟨-, hj₁⟩
      · have hik : j ≠ k := by
          rintro rfl
          rw [hi] at hk
          cases hk
        exact (h.joined _ _ _ _ _ _ _ hi hj'').congr
          (congrArg Cell.next (hcell _ _ hik (guard_of_queued hi)))
      · have hjk : j ≠ k := by
          rintro rfl
          rw [hk] at hj₁
          cases hj₁
          exact hj'i (h.ticket_unique hj'' hi)
        exact (h.joined _ _ _ _ _ _ _ hj₁ hj'').congr
          (congrArg Cell.next (hcell _ _ hjk (guard_of_queued hj₁)))
  · intro j r p₁ hj
    rcases back_cases hpc hj with ⟨rfl, rfl, he, rfl⟩ | ⟨-, hj'⟩
    · exact absurd he hn.symm
    · have hlead := h.leads _ _ _ hj'
      unfold Leads at hlead ⊢
      rwa [howner]
  · intro j r m' p₁ hj hm
    rw [howner]
    rcases back_cases hpc hj with ⟨rfl, rfl, rfl, rfl⟩ | ⟨-, hj'⟩
    · exact h.waits _ _ _ _ hi hm
    · exact h.waits _ _ _ _ hj' hm
  · intro j r m' p₁ hj
    rcases back_cases hpc hj with ⟨rfl, rfl, rfl, rfl⟩ | ⟨-, hj'⟩
    · exact trivial
    · have hf := h.found _ _ _ _ hj'
      by_cases hjk : j = k
      · subst hjk
        rw [hk] at hj'
        cases hj'
        cases pk with
        | loadNextAgain => exact absurd hnone hf
        | handOver next => exact absurd (hnone.symm.trans hf) nofun
        | _ => exact trivial
      · exact hf.congr (congrArg Cell.next (hcell _ _ hjk (guard_of_queued hj')))
  · intro j r p₁ hj
    rcases back_cases hpc hj with ⟨rfl, rfl, he, rfl⟩ | ⟨-, hj'⟩
    · exact absurd he hn.symm
    · exact h.holder _ _ _ hj'

omit [DecidableEq A] in
/-- A new one at the end of the queue. -/
theorem Inv.exchange (h : Inv s) (hi : s.pc i = .made g) :
    Inv ({ s with tail := some g, exchanged := s.exchanged ++ [i] }.setPc i
      (.queued g s.exchanged.length (.storeOwner s.tail))) := by
  set s' := State.setPc { s with tail := some g, exchanged := s.exchanged ++ [i] } i
    (.queued g s.exchanged.length (.storeOwner s.tail)) with hs'
  have hpc : s'.pc = update s.pc i (.queued g s.exchanged.length (.storeOwner s.tail)) := rfl
  have hex : s'.exchanged = s.exchanged ++ [i] := rfl
  have hlen : s'.exchanged.length = s.exchanged.length + 1 := by rw [hex, List.length_append]; rfl
  have hguard := guard_same hpc (by rw [hi]; rfl)
  have hfresh : s'.cell g = ⟨none, false⟩ := h.fresh i g hi
  refine ⟨?_, ?_, ?_, ?_, ?_, ?_, ?_, ?_, ?_, ?_, ?_, ?_, ?_, h.acquired, ?_⟩
  · intro j r hj
    exact h.live j r (hguard j ▸ hj)
  · intro j k r hj hk
    exact h.unique j k r (hguard j ▸ hj) (hguard k ▸ hk)
  · intro j r hj
    rcases pc_cases hpc j with ⟨rfl, he⟩ | ⟨-, he⟩
    · rw [he] at hj
      cases hj
    · exact h.fresh j r (he ▸ hj)
  · intro j r m p₁ hj
    rw [hex]
    rcases back_cases hpc hj with ⟨rfl, rfl, rfl, rfl⟩ | ⟨-, hj'⟩
    · exact ⟨List.getElem?_concat_length .., h.le⟩
    · rw [List.getElem?_append_left (h.ticket_lt hj')]
      exact h.ticket _ _ _ _ hj'
  · intro j m hm hjm
    rw [hex] at hjm
    rcases Nat.lt_trichotomy m s.exchanged.length with hlt | rfl | hgt
    · rw [List.getElem?_append_left hlt] at hjm
      obtain ⟨r, p₁, hj⟩ := h.here j m hm hjm
      rcases pc_cases hpc j with ⟨rfl, -⟩ | ⟨-, he⟩
      · rw [hi] at hj
        cases hj
      · exact ⟨r, p₁, he.trans hj⟩
    · rw [List.getElem?_concat_length] at hjm
      cases hjm
      exact ⟨g, _, update_self ..⟩
    · have hnone : (s.exchanged ++ [i])[m]? = none := List.getElem?_eq_none (by rw [← hex, hlen]; exact hgt)
      rw [hnone] at hjm
      cases hjm
  · rw [hlen]
    exact h.le.trans (Nat.le_succ _)
  · intro he
    rw [hlen] at he
    exact absurd h.le (Nat.not_le.2 (he ▸ Nat.lt_succ_self _))
  · intro j r m p₁ hj hm
    rw [hlen] at hm
    rcases back_cases hpc hj with ⟨rfl, rfl, rfl, rfl⟩ | ⟨-, hj'⟩
    · exact ⟨rfl, by rw [hfresh]⟩
    · exact absurd (h.ticket_lt hj') (Nat.not_lt.2 (Nat.succ.inj hm).ge)
  · intro j k r r' m p₁ p₂ hj hk
    rcases back_cases hpc hk with ⟨rfl, rfl, hm, rfl⟩ | ⟨-, hk'⟩
    · rcases back_cases hpc hj with ⟨-, -, hm', -⟩ | ⟨-, hj'⟩
      · exact absurd (hm'.trans hm.symm) (Nat.ne_of_lt (Nat.lt_succ_self m))
      · obtain ⟨htail, hnone⟩ := h.last _ _ _ _ hj' hm
        exact .inl ⟨.inl (by rw [htail]), hnone⟩
    · rcases back_cases hpc hj with ⟨-, -, rfl, -⟩ | ⟨-, hj'⟩
      · exact absurd (h.ticket_lt hk') (Nat.not_lt.2 (Nat.le_succ _))
      · exact h.joined _ _ _ _ _ _ _ hj' hk'
  · intro j r p₁ hj
    rcases back_cases hpc hj with ⟨rfl, rfl, he, rfl⟩ | ⟨-, hj'⟩
    · exact .inl (by rw [h.empty he])
    · exact h.leads _ _ _ hj'
  · intro j r m p₁ hj hm
    rcases back_cases hpc hj with ⟨rfl, rfl, rfl, rfl⟩ | ⟨-, hj'⟩
    · rw [hfresh]
    · exact h.waits _ _ _ _ hj' hm
  · intro j r m p₁ hj
    rcases back_cases hpc hj with ⟨rfl, rfl, rfl, rfl⟩ | ⟨-, hj'⟩
    · exact trivial
    · exact h.found _ _ _ _ hj'
  · exact h.fifo.trans (List.prefix_append ..)
  · intro j r p₁ hj
    rcases back_cases hpc hj with ⟨rfl, rfl, he, rfl⟩ | ⟨-, hj'⟩
    · refine iff_of_false nofun fun hacq => ?_
      have hle := h.fifo.length_le
      change s.acquired.length = s.released + 1 at hacq
      change s.released = s.exchanged.length at he
      omega
    · exact h.holder _ _ _ hj'

omit [DecidableEq A] in
/-- The first leaves the queue, and the next one, if there is one, becomes the owner. -/
theorem Inv.release (h : Inv s) (hi : s.pc i = .queued g n p) (hp : p.holds = true)
    (hpc : s'.pc = update s.pc i (.released g)) (hlive : s'.live = s.live) (hex : s'.exchanged = s.exchanged)
    (hrel : s'.released = s.released + 1) (hacq : s'.acquired = s.acquired)
    (hempty : n + 1 = s.exchanged.length → s'.tail = none)
    (htail : n + 1 < s.exchanged.length → s'.tail = s.tail)
    (hnext : ∀ r, (s'.cell r).next = (s.cell r).next)
    (howner : ∀ j r, (s.pc j).guard = some r → (∀ p₁, s.pc j ≠ .queued r (n + 1) p₁) →
      (s'.cell r).isOwner = (s.cell r).isOwner)
    (hsucc : ∀ j r p₁, s.pc j = .queued r (n + 1) p₁ → p₁ = .spin ∧ (s'.cell r).isOwner = true) : Inv s' := by
  have hn := h.first_of_holds hi hp
  subst hn
  have hguard := guard_same hpc (guard_of_queued hi).symm
  have hlen : s.acquired.length = s.released + 1 := (h.holder i g p hi).1 hp
  have hback : ∀ {j r m p₁}, s'.pc j = .queued r m p₁ → j ≠ i ∧ s.pc j = .queued r m p₁ := by
    intro j r m p₁ hj
    rcases pc_cases hpc j with ⟨-, he⟩ | ⟨hji, he⟩
    · rw [he] at hj
      cases hj
    · exact ⟨hji, he ▸ hj⟩
  refine ⟨?_, ?_, ?_, ?_, ?_, ?_, ?_, ?_, ?_, ?_, ?_, ?_, ?_, ?_, ?_⟩
  · intro j r hj
    rw [hlive]
    exact h.live j r (hguard j ▸ hj)
  · intro j k r hj hk
    exact h.unique j k r (hguard j ▸ hj) (hguard k ▸ hk)
  · intro j r hj
    rcases pc_cases hpc j with ⟨-, he⟩ | ⟨-, he⟩
    · rw [he] at hj
      cases hj
    · rw [he] at hj
      have hcell := h.fresh j r hj
      have h1 := hnext r
      have h2 := howner j r (by rw [hj]; rfl) (by rw [hj]; nofun)
      rw [hcell] at h1 h2
      cases hc : s'.cell r
      rw [hc] at h1 h2
      cases h1
      cases h2
      rfl
  · intro j r m p₁ hj
    obtain ⟨hji, hj'⟩ := hback hj
    obtain ⟨hjm, hle⟩ := h.ticket _ _ _ _ hj'
    rw [hex, hrel]
    refine ⟨hjm, Nat.lt_of_le_of_ne hle ?_⟩
    rintro rfl
    exact hji (h.ticket_unique hj' hi)
  · intro j m hm hjm
    rw [hrel] at hm
    rw [hex] at hjm
    obtain ⟨r, p₁, hj⟩ := h.here j m (Nat.le_of_succ_le hm) hjm
    rcases pc_cases hpc j with ⟨rfl, -⟩ | ⟨-, he⟩
    · rw [hi] at hj
      cases hj
      exact absurd hm (Nat.lt_irrefl _)
    · exact ⟨r, p₁, he.trans hj⟩
  · rw [hex, hrel]
    exact h.ticket_lt hi
  · rw [hex, hrel]
    exact hempty
  · intro j r m p₁ hj hm
    obtain ⟨hji, hj'⟩ := hback hj
    rw [hex] at hm
    have hlt : s.released + 1 < s.exchanged.length := by
      have hle := (h.ticket _ _ _ _ hj').2
      have hne : m ≠ s.released := by
        rintro rfl
        exact hji (h.ticket_unique hj' hi)
      omega
    rw [htail hlt, hnext]
    exact h.last _ _ _ _ hj' hm
  · intro j k r r' m p₁ p₂ hj hk
    exact (h.joined _ _ _ _ _ _ _ (hback hj).2 (hback hk).2).congr (hnext r)
  · intro j r p₁ hj
    rw [hrel] at hj
    obtain ⟨hspin, ho⟩ := hsucc j r p₁ (hback hj).2
    exact .inr ⟨ho, .inl hspin⟩
  · intro j r m p₁ hj hm
    rw [hrel] at hm
    have hj' := (hback hj).2
    rw [howner j r (guard_of_queued hj') (fun p₂ hj₂ => ?_)]
    · exact h.waits _ _ _ _ hj' (Nat.lt_of_succ_lt hm)
    · rw [hj'] at hj₂
      cases hj₂
      exact absurd hm (Nat.lt_irrefl _)
  · intro j r m p₁ hj
    exact (h.found _ _ _ _ (hback hj).2).congr (hnext r)
  · rw [hex, hacq]
    exact h.fifo
  · rw [hacq, hrel]
    exact .inl hlen
  · intro j r p₁ hj
    rw [hrel] at hj
    obtain ⟨rfl, -⟩ := hsucc j r p₁ (hback hj).2
    rw [hacq, hrel, hlen]
    exact iff_of_false nofun (Nat.ne_of_lt (Nat.lt_succ_self _))

theorem Inv.construct (h : Inv s) {a : A} (hi : s.pc i = .idle) (ha : s.live a = none) :
    Inv ({ s with
      mem := update s.mem a ⟨none, false⟩
      live := update s.live a (some s.made)
      made := s.made + 1 }.setPc i (.made ⟨a, s.made⟩)) := by
  set s' := State.setPc { s with
      mem := update s.mem a ⟨none, false⟩
      live := update s.live a (some s.made)
      made := s.made + 1 } i (.made ⟨a, s.made⟩) with hs'
  have hpc : s'.pc = update s.pc i (.made ⟨a, s.made⟩) := rfl
  have hne : ∀ j r, (s.pc j).guard = some r → r.addr ≠ a := by
    rintro j r hj rfl
    rw [h.live j r hj] at ha
    cases ha
  have hcell : ∀ j r, (s.pc j).guard = some r → s'.cell r = s.cell r :=
    fun j r hj => update_of_ne (hne j r hj) ..
  have hback : ∀ {j r m p₁}, s'.pc j = .queued r m p₁ → s.pc j = .queued r m p₁ := by
    intro j r m p₁ hj
    rcases pc_cases hpc j with ⟨-, he⟩ | ⟨-, he⟩
    · rw [he] at hj
      cases hj
    · exact he ▸ hj
  have hguard : ∀ {j r}, (s'.pc j).guard = some r →
      j = i ∧ r = ⟨a, s.made⟩ ∨ j ≠ i ∧ (s.pc j).guard = some r := by
    intro j r hj
    rcases pc_cases hpc j with ⟨rfl, he⟩ | ⟨hji, he⟩
    · rw [he] at hj
      exact .inl ⟨rfl, (Option.some.inj hj).symm⟩
    · exact .inr ⟨hji, he ▸ hj⟩
  refine ⟨?_, ?_, ?_, ?_, ?_, h.le, h.empty, ?_, ?_, ?_, ?_, ?_, h.fifo, h.acquired, ?_⟩
  · intro j r hj
    rcases hguard hj with ⟨-, rfl⟩ | ⟨-, hj'⟩
    · exact update_self ..
    · exact (update_of_ne (hne j r hj') ..).trans (h.live j r hj')
  · intro j k r hj hk
    rcases hguard hj with ⟨rfl, rfl⟩ | ⟨-, hj'⟩
    · rcases hguard hk with ⟨rfl, -⟩ | ⟨-, hk'⟩
      · rfl
      · exact absurd rfl (hne k _ hk')
    · rcases hguard hk with ⟨-, rfl⟩ | ⟨-, hk'⟩
      · exact absurd rfl (hne j _ hj')
      · exact h.unique j k r hj' hk'
  · intro j r hj
    rcases pc_cases hpc j with ⟨-, he⟩ | ⟨-, he⟩
    · rw [he] at hj
      cases hj
      exact update_self ..
    · rw [he] at hj
      rw [hcell j r (by rw [hj]; rfl)]
      exact h.fresh j r hj
  · exact fun j r m p₁ hj => h.ticket _ _ _ _ (hback hj)
  · intro j m hm hjm
    obtain ⟨r, p₁, hj⟩ := h.here j m hm hjm
    rcases pc_cases hpc j with ⟨rfl, -⟩ | ⟨-, he⟩
    · rw [hi] at hj
      cases hj
    · exact ⟨r, p₁, he.trans hj⟩
  · intro j r m p₁ hj hm
    rw [hcell j r (guard_of_queued (hback hj))]
    exact h.last _ _ _ _ (hback hj) hm
  · intro j k r r' m p₁ p₂ hj hk
    exact (h.joined _ _ _ _ _ _ _ (hback hj) (hback hk)).congr
      (congrArg Cell.next (hcell j r (guard_of_queued (hback hj))))
  · intro j r p₁ hj
    have hlead := h.leads _ _ _ (hback hj)
    unfold Leads at hlead ⊢
    rwa [hcell j r (guard_of_queued (hback hj))]
  · intro j r m p₁ hj hm
    rw [hcell j r (guard_of_queued (hback hj))]
    exact h.waits _ _ _ _ (hback hj) hm
  · intro j r m p₁ hj
    exact (h.found _ _ _ _ (hback hj)).congr (congrArg Cell.next (hcell j r (guard_of_queued (hback hj))))
  · exact fun j r p₁ hj => h.holder _ _ _ (hback hj)

theorem Inv.destroy (h : Inv s) (hi : s.pc i = .released g) :
    Inv ({ s with live := update s.live g.addr none }.setPc i .idle) := by
  set s' := State.setPc { s with live := update s.live g.addr none } i .idle with hs'
  have hpc : s'.pc = update s.pc i .idle := rfl
  have hback : ∀ {j r m p₁}, s'.pc j = .queued r m p₁ → s.pc j = .queued r m p₁ := by
    intro j r m p₁ hj
    rcases pc_cases hpc j with ⟨-, he⟩ | ⟨-, he⟩
    · rw [he] at hj
      cases hj
    · exact he ▸ hj
  have hguard : ∀ {j r}, (s'.pc j).guard = some r → j ≠ i ∧ (s.pc j).guard = some r := by
    intro j r hj
    rcases pc_cases hpc j with ⟨-, he⟩ | ⟨hji, he⟩
    · rw [he] at hj
      cases hj
    · exact ⟨hji, he ▸ hj⟩
  refine ⟨?_, ?_, ?_, ?_, ?_, h.le, h.empty, ?_, ?_, ?_, ?_, ?_, h.fifo, h.acquired, ?_⟩
  · intro j r hj
    obtain ⟨hji, hj'⟩ := hguard hj
    exact (update_of_ne (h.addr_ne hji hj' (by rw [hi]; rfl)) ..).trans (h.live j r hj')
  · exact fun j k r hj hk => h.unique j k r (hguard hj).2 (hguard hk).2
  · intro j r hj
    rcases pc_cases hpc j with ⟨-, he⟩ | ⟨-, he⟩
    · rw [he] at hj
      cases hj
    · exact h.fresh j r (he ▸ hj)
  · exact fun j r m p₁ hj => h.ticket _ _ _ _ (hback hj)
  · intro j m hm hjm
    obtain ⟨r, p₁, hj⟩ := h.here j m hm hjm
    rcases pc_cases hpc j with ⟨rfl, -⟩ | ⟨-, he⟩
    · rw [hi] at hj
      cases hj
    · exact ⟨r, p₁, he.trans hj⟩
  · exact fun j r m p₁ hj hm => h.last _ _ _ _ (hback hj) hm
  · exact fun j k r r' m p₁ p₂ hj hk => h.joined _ _ _ _ _ _ _ (hback hj) (hback hk)
  · exact fun j r p₁ hj => h.leads _ _ _ (hback hj)
  · exact fun j r m p₁ hj hm => h.waits _ _ _ _ (hback hj) hm
  · exact fun j r m p₁ hj => h.found _ _ _ _ (hback hj)
  · exact fun j r p₁ hj => h.holder _ _ _ (hback hj)

omit [DecidableEq ι] [DecidableEq A] in
/-- `tail_` points to a `Guard` only when it is the last. -/
theorem Inv.last_of_tail (h : Inv s) (hi : s.pc i = .queued g n p)
    (ht : s.tail.map Ref.addr = some g.addr) : n + 1 = s.exchanged.length := by
  have hlt := h.ticket_lt hi
  have hle := (h.ticket _ _ _ _ hi).2
  obtain ⟨m, hm⟩ : ∃ m, m + 1 = s.exchanged.length := ⟨_, Nat.sub_add_cancel (Nat.zero_lt_of_lt hlt)⟩
  obtain ⟨j, g', p', hj⟩ := h.exists_queued (n := m) (by omega) (by omega)
  have htail := (h.last _ _ _ _ hj hm).1
  rw [htail] at ht
  have hij : j = i := by
    by_contra hne
    exact h.addr_ne hne (guard_of_queued hj) (guard_of_queued hi) (Option.some.inj ht)
  subst hij
  rw [hi] at hj
  cases hj
  exact hm

theorem Inv.placeStep (h : Inv s) (hi : s.pc i = .queued g n p) (hs : placeStep s i g n p = some s') :
    Inv s' := by
  cases p with
  | storeOwner prev =>
    cases prev with
    | none =>
      cases hs
      exact h.storeOwner_none hi
    | some prev =>
      cases hs
      exact h.storeOwner_some hi
  | link prev =>
    cases hs
    exact h.link hi
  | spin =>
    simp only [QueueSpinLock.placeStep] at hs
    split at hs
    · next howner =>
      cases hs
      exact h.acquire hi howner
    · cases hs
      exact h
  | critical => cases hs
  | loadNext =>
    simp only [QueueSpinLock.placeStep] at hs
    split at hs
    · cases hs
      exact h.inLock hi rfl rfl trivial
    · next x hx =>
      cases hs
      refine h.inLock hi rfl rfl ?_
      change (s.cell g).next ≠ none
      rw [hx]
      nofun
  | cas =>
    simp only [QueueSpinLock.placeStep] at hs
    split at hs
    · next ht =>
      cases hs
      have hlast := h.last_of_tail hi ht
      refine h.release hi rfl rfl rfl rfl rfl rfl (fun _ => rfl) ?_ (fun _ => rfl) (fun _ _ _ _ => rfl) ?_
      · exact fun hlt => absurd hlast (Nat.ne_of_lt hlt)
      · exact fun j r p₁ hj => absurd hlast (Nat.ne_of_lt (h.ticket_lt hj))
    · cases hs
      exact h.inLock hi rfl rfl trivial
  | loadNextAgain =>
    simp only [QueueSpinLock.placeStep] at hs
    split at hs
    · cases hs
    · next x hx =>
      cases hs
      exact h.inLock hi rfl rfl hx
  | handOver next =>
    cases hs
    have hnext : (s.cell g).next = some next := h.found _ _ _ _ hi
    have hlt : n + 1 < s.exchanged.length := by
      refine Nat.lt_of_le_of_ne (h.ticket_lt hi) fun hlast => ?_
      rw [(h.last _ _ _ _ hi hlast).2] at hnext
      cases hnext
    -- whoever comes next has linked itself, and waits
    have hsucc : ∀ j r p₁, s.pc j = .queued r (n + 1) p₁ → p₁ = .spin ∧ r = next := by
      intro j r p₁ hj
      rcases h.joined _ _ _ _ _ _ _ hi hj with ⟨-, hnone⟩ | ⟨hspin, hr⟩
      · rw [hnext] at hnone
        cases hnone
      · exact ⟨hspin, Option.some.inj (hr.symm.trans hnext)⟩
    have hle := (h.ticket _ _ _ _ hi).2
    obtain ⟨k, gk, pk, hk⟩ := h.exists_queued (Nat.le_succ_of_le hle) hlt
    obtain ⟨-, rfl⟩ := hsucc k gk pk hk
    refine h.release hi rfl rfl rfl rfl rfl rfl (fun hlast => absurd hlast (Nat.ne_of_lt hlt)) (fun _ => rfl)
      (fun _ => next_setOwner) ?_ ?_
    · intro j r hj hno
      have hjk : j ≠ k := by
        rintro rfl
        rw [hk] at hj
        cases hj
        exact hno _ hk
      exact congrArg Cell.isOwner (cell_setOwner_of_ne (h.addr_ne hjk hj (guard_of_queued hk)))
    · intro j r p₁ hj
      obtain ⟨hspin, rfl⟩ := hsucc j r p₁ hj
      exact ⟨hspin, isOwner_setOwner⟩

theorem Inv.step {act : Act A ι} (h : Inv s) (hs : step s act = some s') : Inv s' := by
  cases act with
  | construct i a =>
    simp only [QueueSpinLock.step] at hs
    split at hs
    · next hi ha =>
      cases hs
      exact h.construct hi ha
    · cases hs
  | destroy i =>
    simp only [QueueSpinLock.step] at hs
    split at hs
    · next g n hi =>
      cases hs
      exact h.inLock hi rfl rfl trivial
    · cases hs
  | step i =>
    simp only [QueueSpinLock.step] at hs
    split at hs
    · cases hs
    · next g hi =>
      cases hs
      exact h.exchange hi
    · next g n p hi => exact h.placeStep hi hs
    · next g hi =>
      cases hs
      exact h.destroy hi

omit [DecidableEq ι] [DecidableEq A] in
theorem inv_init : Inv (init : State A ι) where
  live := nofun
  unique := nofun
  fresh := nofun
  ticket := nofun
  here _ _ _ h := nomatch h
  le := Nat.le_refl _
  empty _ := rfl
  last := nofun
  joined := nofun
  leads := nofun
  waits := nofun
  found := nofun
  fifo := List.prefix_refl _
  acquired := .inl rfl
  holder := nofun

theorem reach_inv (r : Reach (system A ι) anyStep s) : Inv s :=
  r.invariant (fun _ hs => hs ▸ inv_init) fun _ _ _ h _ hs => h.step hs

end step

/-! ### Main theorem -/

/-- The `Guard` whose fields the next step of a thread reads or writes. -/
def Pc.access {A : Type} : Pc A → Option (Ref A)
  | .queued _ _ (.link prev) => some prev
  | .queued _ _ (.handOver next) => some next
  | .queued _ _ .critical => none
  | .queued g _ _ => some g
  | _ => none

/-- In `Release`. -/
def Place.releasing {A : Type} : Place A → Bool
  | .loadNext | .cas | .loadNextAgain | .handOver _ => true
  | _ => false

section main

variable {A ι : Type} {s : State A ι} {i j : ι} {g g' : Ref A} {n : Nat} {p p' : Place A}

/-- `tail_` is null exactly when nobody is in the queue. -/
theorem Inv.tail_eq_none (h : Inv s) : s.tail = none ↔ ∀ i g n p, s.pc i ≠ .queued g n p := by
  constructor
  · intro ht i g n p hi
    have hle := (h.ticket _ _ _ _ hi).2
    have hlt := h.ticket_lt hi
    obtain ⟨m, hm⟩ : ∃ m, m + 1 = s.exchanged.length := ⟨_, Nat.sub_add_cancel (Nat.zero_lt_of_lt hlt)⟩
    obtain ⟨j, r, p₁, hj⟩ := h.exists_queued (n := m) (by omega) (by omega)
    rw [(h.last _ _ _ _ hj hm).1] at ht
    cases ht
  · intro hno
    refine h.empty (Nat.le_antisymm h.le (Nat.not_lt.1 fun hlt => ?_))
    obtain ⟨i, g, p, hi⟩ := h.exists_queued (Nat.le_refl _) hlt
    exact hno i g _ p hi

theorem Inv.holds_unique (h : Inv s) {m : Nat} (hi : s.pc i = .queued g n p) (hp : p.holds = true)
    (hj : s.pc j = .queued g' m p') (hp' : p'.holds = true) : i = j := by
  have hn := h.first_of_holds hi hp
  have hm := h.first_of_holds hj hp'
  subst hn
  subst hm
  exact h.ticket_unique hi hj

theorem holds_of_releasing (hp : p.releasing = true) : p.holds = true := by
  cases p <;> first | rfl | cases hp

/-- A releasing owner is alone, and `tail_` is its own; or there is one behind it, which links itself or has
done so. -/
theorem Inv.successor (h : Inv s) (hi : s.pc i = .queued g n p) (hp : p.releasing = true) :
    (s.tail = some g ∧ ∀ j r m p₁, s.pc j = .queued r m p₁ → j = i) ∨
      ∃ j r p₁, s.pc j = .queued r (n + 1) p₁ ∧ Joined s g r p₁ := by
  have hn := h.first_of_holds hi (holds_of_releasing hp)
  subst hn
  rcases Nat.eq_or_lt_of_le (h.ticket_lt hi) with hlast | hlt
  · refine .inl ⟨(h.last _ _ _ _ hi hlast).1, fun j r m p₁ hj => ?_⟩
    have hle := (h.ticket _ _ _ _ hj).2
    have hm := h.ticket_lt hj
    have he : m = s.released := by
      change s.released + 1 = _ at hlast
      omega
    subst he
    exact h.ticket_unique hj hi
  · obtain ⟨j, r, p₁, hj⟩ := h.exists_queued (Nat.le_succ _) hlt
    exact .inr ⟨j, r, p₁, hj, h.joined _ _ _ _ _ _ _ hi hj⟩

/-- Whoever waits has an owner at the head of the queue. -/
theorem Inv.owner_of_waiting (h : Inv s) (hi : s.pc i = .queued g n p) :
    ∃ j r p₁, s.pc j = .queued r s.released p₁ ∧ Leads s r p₁ := by
  have hlt := Nat.lt_of_le_of_lt (h.ticket _ _ _ _ hi).2 (h.ticket_lt hi)
  obtain ⟨j, r, p₁, hj⟩ := h.exists_queued (Nat.le_refl _) hlt
  exact ⟨j, r, p₁, hj, h.leads _ _ _ hj⟩

/-- What a step reads or writes is a `Guard` that has not been destroyed. -/
theorem Inv.access_live (h : Inv s) (hi : (s.pc i).access = some g) : s.live g.addr = some g.inst := by
  cases hp : s.pc i with
  | queued r n p =>
    rw [hp] at hi
    have hr := h.live i r (guard_of_queued hp)
    cases p with
    | link prev =>
      cases hi
      have hne : n ≠ s.released := by
        rintro rfl
        rcases h.leads i r _ hp with he | ⟨-, he | he⟩
        · cases he
        · cases he
        · cases he
      have hlt := Nat.lt_of_le_of_ne (h.ticket _ _ _ _ hp).2 hne.symm
      obtain ⟨k, gk, m, pk, hk, -, ⟨he | he, -⟩ | ⟨he, -⟩⟩ := h.pred hp hlt
      · cases he
      · cases he
        exact h.live k _ (guard_of_queued hk)
      · cases he
    | handOver next =>
      cases hi
      have hnext : (s.cell r).next = some g := h.found _ _ _ _ hp
      have hlt : n + 1 < s.exchanged.length := by
        refine Nat.lt_of_le_of_ne (h.ticket_lt hp) fun hlast => ?_
        rw [(h.last _ _ _ _ hp hlast).2] at hnext
        cases hnext
      obtain ⟨k, gk, pk, hk⟩ := h.exists_queued (Nat.le_succ_of_le (h.ticket _ _ _ _ hp).2) hlt
      rcases h.joined _ _ _ _ _ _ _ hp hk with ⟨-, hnone⟩ | ⟨-, hgk⟩
      · rw [hnext] at hnone
        cases hnone
      · rw [hnext] at hgk
        cases hgk
        exact h.live k _ (guard_of_queued hk)
    | critical => cases hi
    | _ =>
      cases hi
      exact hr
  | _ =>
    rw [hp] at hi
    cases hi

/-- At most one holds the lock; the locks are acquired in the order of the exchanges; `tail_` is null exactly
when nobody is between the exchange and the end of `Release`'s effect; who releases is alone and can clear
`tail_`, or has a successor; who waits has an owner at the head of the queue; and no step reads or writes a
`Guard` that is gone, even if another one is at its address. -/
theorem spinlock_correct [DecidableEq A] [DecidableEq ι] (r : Reach (system A ι) anyStep s) :
    (∀ i j g g' n m p p', s.pc i = .queued g n p → p.holds = true → s.pc j = .queued g' m p' →
        p'.holds = true → i = j) ∧
      s.acquired <+: s.exchanged ∧
      (s.tail = none ↔ ∀ i g n p, s.pc i ≠ .queued g n p) ∧
      (∀ i g n p, s.pc i = .queued g n p → p.releasing = true →
        (s.tail = some g ∧ ∀ j r m p₁, s.pc j = .queued r m p₁ → j = i) ∨
          ∃ j r p₁, s.pc j = .queued r (n + 1) p₁ ∧ Joined s g r p₁) ∧
      (∀ i g n p, s.pc i = .queued g n p → ∃ j r p₁, s.pc j = .queued r s.released p₁ ∧ Leads s r p₁) ∧
      ∀ i g, (s.pc i).access = some g → s.live g.addr = some g.inst := by
  have h := reach_inv r
  refine ⟨?_, h.fifo, h.tail_eq_none, ?_, ?_, ?_⟩
  · exact fun i j g g' n m p p' hi hp hj hp' => h.holds_unique hi hp hj hp'
  · exact fun i g n p hi hp => h.successor hi hp
  · exact fun i g n p hi => h.owner_of_waiting hi
  · exact fun i g hi => h.access_live hi

end main

/-- The second thread waits, is handed the lock, and uses the address of the first `Guard` the next time. -/
theorem spinlock_correct_two : ∃ s : State Nat (Fin 2), (s.exchanged = [0, 1, 0] ∧ s.acquired = [0, 1]) ∧
    s.acquired <+: s.exchanged := by
  obtain ⟨s, hr, hp⟩ := Reach.of_exec_any (system Nat (Fin 2))
    ([Act.construct 0 8, Act.construct 1 9, Act.step 0, Act.step 1, Act.step 0, Act.step 0, Act.step 1, Act.step 1,
        Act.destroy 0] ++
      List.replicate 4 (Act.step 0) ++ [Act.step 1, Act.construct 0 8, Act.step 0])
    (fun s => s.exchanged = [0, 1, 0] ∧ s.acquired = [0, 1]) (s := init) rfl (by decide)
  exact ⟨s, of_decide_eq_true hp, (spinlock_correct hr).2.1⟩

end Mutex.QueueSpinLock
