import ConcurrencyCourse.Fibers.Mutex
import ConcurrencyCourse.Lib.Lock
import ConcurrencyCourse.Lib.Threads
import ConcurrencyCourse.MSQueue.Chain

/-!
# `fibers::Mutex`: a hand-off lock

The invariant has four parts, each of which only some of the steps touch:

* `QueueOk`: `park_q_` is a queue, and who is in `Put` or `Take` (there is one, who has `mtx_`) knows its way.
* `Tokens`: the lock is a token that one fiber has as long as `st_` is not `None`. The `AwaitSuspend` of an
  `Unlock` has it until it schedules the next fiber. Its failed CAS has seen `LockedWithWaiters`, and nobody
  else can undo that.
* `Waiters`: `st_` is `LockedWithWaiters` when `park_q_` is not empty, but while somebody who has `mtx_` is
  about to set it right.
* `Flow n`: the first `n` fibers that were linked have been scheduled, the next one may be in somebody's hands,
  the others are in `park_q_`. These two are the fibers that are parked.
-/

namespace Fibers.Mutex

open MSQueue Transition Function

/-! ### Where a fiber is -/

/-- Past the CAS of `head_`. -/
def past {T : Type} : TakePc T → Bool
  | .readNext3 _ | .moveValue _ _ | .retire _ _ | .subSize _ | .done _ => true
  | .loadHead | .readNext _ | .readNext2 _ | .casHead _ _ => false

section pc

variable {ι : Type}

/-- Has `mtx_`. -/
def Pc.locked : Pc ι → Bool
  | .loadSt | .casWaiters | .put _ | .unlockParked | .unlockRetry => true
  | .take _ | .readEmpty _ | .storeSt _ _ | .unlockTaken _ => true
  | _ => false

/-- Has seen, or written, `LockedWithWaiters`. -/
def Pc.slow : Pc ι → Bool
  | .put _ | .unlockParked | .lockTake | .take _ | .readEmpty _ | .storeSt _ _ => true
  | _ => false

/-- `st_` is ahead of `park_q_`, or behind it. -/
def Pc.between : Pc ι → Bool
  | .put pc => pc.priv.isSome
  | .take pc => past pc
  | .readEmpty _ | .storeSt _ _ => true
  | _ => false

/-- Has taken a fiber and not scheduled it. -/
def Pc.handing : Pc ι → Nat
  | .take pc => (past pc).toNat
  | .readEmpty _ | .storeSt _ _ | .unlockTaken _ | .schedule _ => 1
  | _ => 0

/-- The fiber that it knows to have taken. -/
def Pc.got : Pc ι → Option ι
  | .take (.retire _ u) | .take (.subSize u) | .take (.done (some u)) => some u
  | .readEmpty u | .storeSt u _ | .unlockTaken u | .schedule u => some u
  | _ => none

/-- Linked, and not scheduled since. -/
def Pc.inQueue : Pc ι → Bool
  | .put pc => pc.priv.isNone
  | .unlockParked | .parked => true
  | _ => false

/-- Linked, and not added to `size_`. -/
def Pc.uncounted : Pc ι → Nat
  | .put pc => if pc.phase = 1 then 1 else 0
  | _ => 0

/-- Took, and not subtracted from `size_`. -/
def Pc.unsized : Pc ι → Nat
  | .take pc => pc.unsized
  | _ => 0

end pc

/-! ### The invariant -/

/-- The one who has it, if the lock is not free. -/
structure Owned {ι : Type} (st : Status) (tok : ι → Prop) : Prop where
  free : st = .none → ∀ f, ¬ tok f
  one : st ≠ .none → ∃ f, ∀ g, tok g ↔ g = f

variable {ι : Type}

/-- What `f` knows about the queue. -/
def PcOk (q : Queue ι) (f : ι) : Pc ι → Prop
  | .put pc => PutOk q pc ∧ ∀ n, pc.priv = some n → (q.nodes n).value = some f
  | .take pc => TakeOk q pc ∧ pc ≠ .done none
  | .thrown => False
  | _ => True

structure QueueOk (s : State ι) : Prop where
  q : QInv s.q
  ok : ∀ f, PcOk s.q f (s.pc f)

structure Tokens (s : State ι) : Prop where
  owned : Owned s.st s.tok
  apart : ∀ f, (s.pc f).token = true → s.holds f = false
  slow : ∀ f, (s.pc f).slow = true → s.st = .lockedWithWaiters

structure Waiters (s : State ι) : Prop where
  iff : (∀ f, (s.pc f).between = false) → (s.st = .lockedWithWaiters ↔ s.waiting ≠ [])
  store : ∀ f u e, s.pc f = .storeSt u e → (e = true ↔ s.waiting = [])

structure Flow [Fintype ι] (n : Nat) (s : State ι) : Prop where
  taken : s.q.taken = n + ∑ f, (s.pc f).handing
  added : s.q.values.length = s.q.added + ∑ f, (s.pc f).uncounted
  removed : s.q.taken = s.q.removed + ∑ f, (s.pc f).unsized
  got : ∀ f u, (s.pc f).got = some u → s.q.values[s.q.taken - 1]? = some u
  nodup : (s.q.values.drop n).Nodup
  mem : ∀ u, u ∈ s.q.values.drop n ↔ (s.pc u).inQueue = true
  /-- The fiber in somebody's hands. -/
  handed : n < s.q.taken → ∀ u, s.q.values[n]? = some u → s.pc u = .parked

/-- `mtx_` and who has it. -/
structure Locks (s : State ι) : Prop extends Lock.Guards s.mtx fun f => (s.pc f).locked = true where
  holder : s.mtx = true → ∃ f, (s.pc f).locked = true

structure Inv [Fintype ι] (n : Nat) (s : State ι) : Prop where
  lock : Locks s
  queue : QueueOk s
  tokens : Tokens s
  waiters : Waiters s
  flow : Flow n s

/-! ### What follows from it -/

section facts

variable {s : State ι} {f g : ι}

theorem Tokens.unique (hi : Tokens s) (hf : s.tok f) (hg : s.tok g) : f = g := by
  have hst : s.st ≠ .none := fun h => hi.owned.free h f hf
  obtain ⟨o, ho⟩ := hi.owned.one hst
  exact ((ho f).1 hf).trans ((ho g).1 hg).symm

theorem Tokens.locked (hi : Tokens s) (hf : s.tok f) : s.st ≠ .none := fun h => hi.owned.free h f hf

theorem Pc.token_of_handing {pc : Pc ι} (h : pc.handing ≠ 0) : pc.token = true := by
  cases pc <;> first | rfl | exact absurd rfl h

theorem Pc.token_of_unsized {pc : Pc ι} (h : pc.unsized ≠ 0) : pc.token = true := by
  cases pc <;> first | rfl | exact absurd rfl h

theorem Pc.token_of_got {pc : Pc ι} {u : ι} (h : pc.got = some u) : pc.token = true := by
  cases pc <;> first | rfl | cases h

theorem Pc.locked_of_uncounted {pc : Pc ι} (h : pc.uncounted ≠ 0) : pc.locked = true := by
  cases pc <;> first | rfl | exact absurd rfl h

theorem Pc.locked_of_between {pc : Pc ι} (h : pc.between = true) : pc.locked = true := by
  cases pc <;> first | rfl | cases h

theorem Pc.slow_of_between {pc : Pc ι} (h : pc.between = true) : pc.slow = true := by
  cases pc <;> first | rfl | cases h

variable [Fintype ι]

/-- The one with the token is the only one that has taken anything. -/
theorem Tokens.sum_handing (hi : Tokens s) (hf : s.tok f) : ∑ g, (s.pc g).handing = (s.pc f).handing := by
  refine Fintype.sum_eq_single f fun g hg => ?_
  by_contra h
  exact hg (hi.unique (.inr (Pc.token_of_handing h)) hf)

theorem Tokens.sum_unsized (hi : Tokens s) (hf : s.tok f) : ∑ g, (s.pc g).unsized = (s.pc f).unsized := by
  refine Fintype.sum_eq_single f fun g hg => ?_
  by_contra h
  exact hg (hi.unique (.inr (Pc.token_of_unsized h)) hf)

theorem sum_uncounted (hl : Locks s)
    (hf : (s.pc f).locked = true) : ∑ g, (s.pc g).uncounted = (s.pc f).uncounted := by
  refine Fintype.sum_eq_single f fun g hg => ?_
  by_contra h
  exact hg (hl.unique g f (Pc.locked_of_uncounted h) hf)

end facts

/-! ### Fiber `f` moves to `p` -/

section frame

variable [DecidableEq ι] {s s' : State ι} {f : ι} {p : Pc ι}

/-- Whatever is true of `p`, and of where the others are, is true of all. -/
theorem forall_update {t : State ι} {P : ι → Pc ι → Prop} (hpc : t.pc = update s.pc f p) (hf : P f p)
    (ho : ∀ g, g ≠ f → P g (s.pc g)) (g : ι) : P g (t.pc g) := by
  rw [hpc]
  rcases eq_or_ne g f with rfl | hg
  · rwa [update_self]
  · rw [update_of_ne hg]
    exact ho g hg

/-- The queue is left alone. -/
theorem QueueOk.frame (hi : QueueOk s) (hpc : s'.pc = update s.pc f p) (hq : s'.q = s.q)
    (hok : PcOk s.q f p) : QueueOk s' := by
  constructor
  · rw [hq]; exact hi.q
  · rw [hq]; exact forall_update hpc hok fun g _ => hi.ok g

omit [DecidableEq ι] in
/-- A place outside `Put` and `Take`. -/
theorem pcOk_of_unlocked {q : Queue ι} (h : p.locked = false) (ht : p ≠ .thrown) : PcOk q f p := by
  cases p <;> trivial

/-- The one who has `mtx_` changes it. -/
theorem QueueOk.own (hi : QueueOk s) (hl : Locks s)
    (hf : (s.pc f).locked = true) (hpc : s'.pc = update s.pc f p) (hq : QInv s'.q)
    (hok : PcOk s'.q f p) : QueueOk s' := by
  refine ⟨hq, forall_update hpc hok fun g hg => ?_⟩
  refine pcOk_of_unlocked ?_ fun h => ?_
  · by_contra h
    exact hg (hl.unique g f (by simpa using h) hf)
  · have := hi.ok g
    rw [h] at this
    exact this

omit [DecidableEq ι] in
theorem Owned.congr {st st' : Status} {tok tok' : ι → Prop} (h : Owned st tok)
    (hst : st' = .none ↔ st = .none) (ht : ∀ g, tok' g ↔ tok g) : Owned st' tok' := by
  constructor
  · intro hn g hg
    exact h.free (hst.1 hn) g ((ht g).1 hg)
  · intro hn
    obtain ⟨o, ho⟩ := h.one (mt hst.2 hn)
    exact ⟨o, fun g => (ht g).trans (ho g)⟩

theorem tok_update (hpc : s'.pc = update s.pc f p) (hh : s'.holds = s.holds) (g : ι) :
    s'.tok g ↔ s.holds g = true ∨ (update s.pc f p g).token = true := by
  rw [State.tok, hpc, hh]

/-- The token stays where it is. -/
theorem Tokens.frame (hi : Tokens s) (hpc : s'.pc = update s.pc f p) (hh : s'.holds = s.holds)
    (hst : s'.st = .none ↔ s.st = .none) (ht : p.token = (s.pc f).token)
    (hs : p.slow = true → s'.st = .lockedWithWaiters)
    (ho : ∀ g, g ≠ f → (s.pc g).slow = true → s'.st = .lockedWithWaiters) : Tokens s' := by
  refine ⟨hi.owned.congr hst fun g => ?_, ?_, ?_⟩
  · rw [tok_update hpc hh, State.tok]
    rcases eq_or_ne g f with rfl | hg
    · rw [update_self, ht]
    · rw [update_of_ne hg]
  · rw [hh]
    refine forall_update hpc (P := fun g pc => pc.token = true → s.holds g = false) ?_ fun g _ => hi.apart g
    rw [ht]
    exact hi.apart f
  · exact forall_update hpc (P := fun _ pc => pc.slow = true → s'.st = .lockedWithWaiters) hs ho

/-- And so does `st_`. -/
theorem Tokens.stay (hi : Tokens s) (hpc : s'.pc = update s.pc f p) (hh : s'.holds = s.holds)
    (hst : s'.st = s.st) (ht : p.token = (s.pc f).token)
    (hs : p.slow = true → s.st = .lockedWithWaiters) : Tokens s' :=
  hi.frame hpc hh (by rw [hst]) ht (hst ▸ hs) fun g _ => hst ▸ hi.slow g

theorem Waiters.frame (hi : Waiters s) (hpc : s'.pc = update s.pc f p)
    (hst : s'.st = .lockedWithWaiters ↔ s.st = .lockedWithWaiters) (hw : s'.waiting = s.waiting)
    (hb : p.between = (s.pc f).between) (hs : ∀ u e, p = .storeSt u e → (e = true ↔ s.waiting = [])) :
    Waiters s' := by
  constructor
  · intro hall
    rw [hst, hw]
    refine hi.iff fun g => ?_
    have := hall g
    rw [hpc] at this
    rcases eq_or_ne g f with rfl | hg
    · rwa [update_self, hb] at this
    · rwa [update_of_ne hg] at this
  · rw [hw]
    exact forall_update hpc (P := fun _ pc => ∀ u e, pc = .storeSt u e → (e = true ↔ s.waiting = [])) hs
      fun g _ => hi.store g

/-- The others are not about to store into `st_` while `f` has `mtx_`. -/
theorem Waiters.own (hl : Locks s)
    (hf : (s.pc f).locked = true) (hpc : s'.pc = update s.pc f p)
    (hw : p.between = false → (s'.st = .lockedWithWaiters ↔ s'.waiting ≠ []))
    (hs : ∀ u e, p = .storeSt u e → (e = true ↔ s'.waiting = [])) : Waiters s' := by
  constructor
  · intro hall
    refine hw ?_
    have := hall f
    rwa [hpc, update_self] at this
  · refine forall_update hpc (P := fun _ pc => ∀ u e, pc = .storeSt u e → (e = true ↔ s'.waiting = [])) hs
      fun g hg u e h => ?_
    exact absurd (hl.unique g f (by rw [h]; rfl) hf) hg

variable [Fintype ι] {n : Nat}

/-- One place is replaced by another in a sum over all fibers. -/
theorem sum_move {t : State ι} (k : Pc ι → Nat) (hpc : t.pc = update s.pc f p) :
    ∑ g, k (t.pc g) + k (s.pc f) = ∑ g, k (s.pc g) + k p := by
  rw [hpc]
  exact Threads.sum_update_add k s.pc f p

/-- Nothing is linked or scheduled. -/
theorem Flow.move (hi : Flow n s) (hpc : s'.pc = update s.pc f p) (hv : s'.q.values = s.q.values)
    (ht : s'.q.taken + (s.pc f).handing = s.q.taken + p.handing)
    (ha : s'.q.added + p.uncounted = s.q.added + (s.pc f).uncounted)
    (hr : s'.q.taken + s.q.removed + (s.pc f).unsized = s.q.taken + s'.q.removed + p.unsized)
    (hin : p.inQueue = (s.pc f).inQueue) (hf : s.pc f ≠ .parked)
    (hgot : ∀ g u, (s'.pc g).got = some u → s.q.values[s'.q.taken - 1]? = some u)
    (hhand : s'.q.taken = s.q.taken ∨ ∀ u, s.q.values[n]? = some u → s.pc u = .parked) : Flow n s' := by
  have h1 := sum_move Pc.handing hpc
  have h2 := sum_move Pc.uncounted hpc
  have h3 := sum_move Pc.unsized hpc
  have h4 := hi.taken
  have h5 := hi.added
  have h6 := hi.removed
  refine ⟨by omega, by rw [hv]; omega, by omega, by rw [hv]; exact hgot, by rw [hv]; exact hi.nodup,
    fun u => ?_, fun hlt u hu => ?_⟩
  · rw [hv, hi.mem u, hpc]
    rcases eq_or_ne u f with rfl | hu
    · rw [update_self, hin]
    · rw [update_of_ne hu]
  · rw [hv] at hu
    have hpark : s.pc u = .parked := hhand.elim (fun h => hi.handed (h ▸ hlt) u hu) fun h => h u hu
    have hne : u ≠ f := fun h => hf (h ▸ hpark)
    rwa [hpc, update_of_ne hne]

/-- Nor is anything taken or counted. -/
theorem Flow.frame (hi : Flow n s) (hpc : s'.pc = update s.pc f p) (hv : s'.q.values = s.q.values)
    (ht : s'.q.taken = s.q.taken) (ha : s'.q.added = s.q.added) (hr : s'.q.removed = s.q.removed)
    (h1 : p.handing = (s.pc f).handing) (h2 : p.uncounted = (s.pc f).uncounted)
    (h3 : p.unsized = (s.pc f).unsized) (h4 : p.inQueue = (s.pc f).inQueue) (hf : s.pc f ≠ .parked)
    (h5 : ∀ u, p.got = some u → s.q.values[s.q.taken - 1]? = some u) : Flow n s' := by
  refine hi.move hpc hv (by rw [ht, h1]) (by rw [ha, h2]) (by rw [ht, hr, h3]) h4 hf ?_ (.inl ht)
  rw [ht]
  exact forall_update hpc (P := fun _ pc => ∀ u, pc.got = some u → s.q.values[s.q.taken - 1]? = some u) h5
    fun g _ => hi.got g

end frame

/-! ### Steps that change nothing but the place of a fiber -/

section stay

variable [DecidableEq ι] {s s' : State ι} {f : ι} {p p' : Pc ι}

/-- The same for everybody else. -/
structure Same (p p' : Pc ι) : Prop where
  token : p'.token = p.token
  between : p'.between = p.between
  handing : p'.handing = p.handing
  uncounted : p'.uncounted = p.uncounted
  unsized : p'.unsized = p.unsized
  inQueue : p'.inQueue = p.inQueue
  moves : p ≠ .parked

theorem Locks.keep (hl : Locks s) (hf : s.pc f = p) (hpc : s'.pc = update s.pc f p')
    (hm : s'.mtx = s.mtx) (h : p'.locked = p.locked) : Locks s' := by
  have hall : ∀ g, (s'.pc g).locked = (s.pc g).locked := by
    refine forall_update hpc (P := fun g pc => pc.locked = (s.pc g).locked) ?_ fun _ _ => rfl
    rw [hf, h]
  constructor
  · rw [hm]
    exact Lock.Guards.mono hl.toGuards fun g hg => (hall g).symm.trans hg
  · intro hmtx
    obtain ⟨g, hg⟩ := hl.holder (hm ▸ hmtx)
    exact ⟨g, (hall g).trans hg⟩

theorem Locks.acquire (hl : Locks s) (hm : s.mtx = false) (hpc : s'.pc = update s.pc f p')
    (hm' : s'.mtx = true) (h : p'.locked = true) : Locks s' := by
  constructor
  · rw [hm']
    refine Lock.Guards.acquire hl.toGuards hm (x := f) fun g hg => ?_
    rcases eq_or_ne g f with rfl | hne
    · exact .inr rfl
    · rw [hpc, update_of_ne hne] at hg
      exact .inl hg
  · intro _
    refine ⟨f, ?_⟩
    rwa [hpc, update_self]

theorem Locks.release (hl : Locks s) (hf : s.pc f = p) (hp : p.locked = true)
    (hpc : s'.pc = update s.pc f p') (hm : s'.mtx = false) (h : p'.locked = false) : Locks s' := by
  constructor
  · refine Lock.Guards.release hl.toGuards (x := f) (by rw [hf]; exact hp) (fun g hg => ?_) s'.mtx
    rcases eq_or_ne g f with rfl | hne
    · rw [hpc, update_self, h] at hg
      cases hg
    · rw [hpc, update_of_ne hne] at hg
      exact ⟨hg, hne⟩
  · intro hmtx
    exact absurd (hm.symm.trans hmtx) nofun

variable [Fintype ι] {n : Nat}

theorem Inv.stay (hi : Inv n s) (hf : s.pc f = p) (hpc : s'.pc = update s.pc f p') (hq : s'.q = s.q)
    (hst : s'.st = s.st) (hh : s'.holds = s.holds) (hl : Locks s') (hsame : Same p p')
    (hok : PcOk s.q f p') (hslow : p'.slow = true → s.st = .lockedWithWaiters)
    (hstore : ∀ u e, p' = .storeSt u e → (e = true ↔ s.waiting = []))
    (hgot : ∀ u, p'.got = some u → s.q.values[s.q.taken - 1]? = some u) : Inv n s' := by
  obtain ⟨h1, h2, h3, h4, h5, h6, h7⟩ := hsame
  subst hf
  have hw : s'.waiting = s.waiting := by rw [State.waiting, hq]; rfl
  exact ⟨hl, hi.queue.frame hpc hq hok, hi.tokens.stay hpc hh hst h1 hslow,
    hi.waiters.frame hpc (by rw [hst]) hw h2 hstore,
    hi.flow.frame hpc (by rw [hq]) (by rw [hq]) (by rw [hq]) (by rw [hq]) h3 h4 h5 h6 h7 hgot⟩

end stay

/-! ### The token moves -/

section token

variable [DecidableEq ι] {s s' : State ι} {f u : ι} {p p' : Pc ι}

theorem Tokens.acquire (hi : Tokens s) (hst : s.st = .none) (hpc : s'.pc = update s.pc f .runAcquired)
    (hh : s'.holds = s.holds) (hst' : s'.st = .lockedNoWaiter) : Tokens s' := by
  have hfree := hi.owned.free hst
  have hslow : ∀ g, (s.pc g).slow = true → s'.st = .lockedWithWaiters := by
    intro g hg
    rw [hi.slow g hg] at hst
    cases hst
  refine ⟨⟨fun h => ?_, fun _ => ⟨f, fun g => ?_⟩⟩, ?_, ?_⟩
  · rw [hst'] at h
    cases h
  · rw [tok_update hpc hh]
    rcases eq_or_ne g f with rfl | hg
    · rw [update_self]
      exact ⟨fun _ => rfl, fun _ => .inr rfl⟩
    · rw [update_of_ne hg]
      exact ⟨fun h => absurd h (hfree g), fun h => absurd h hg⟩
  · rw [hh]
    refine forall_update hpc (P := fun g pc => pc.token = true → s.holds g = false) ?_ fun g _ => hi.apart g
    intro _
    by_contra h
    exact hfree f (.inl (by simpa using h))
  · exact forall_update hpc (P := fun _ pc => pc.slow = true → s'.st = .lockedWithWaiters) nofun
      fun g _ => hslow g

theorem Tokens.release (hi : Tokens s) (hf : s.pc f = .casFree) (hst : s.st = .lockedNoWaiter)
    (hpc : s'.pc = update s.pc f .runReleased) (hh : s'.holds = s.holds) (hst' : s'.st = .none) :
    Tokens s' := by
  have htok : s.tok f := .inr (by rw [hf]; rfl)
  have hholds : s.holds f = false := hi.apart f (by rw [hf]; rfl)
  have hslow : ∀ g, (s.pc g).slow = true → s'.st = .lockedWithWaiters := by
    intro g hg
    rw [hi.slow g hg] at hst
    cases hst
  refine ⟨⟨fun _ g => ?_, fun h => absurd hst' h⟩, ?_, ?_⟩
  · rw [tok_update hpc hh]
    rcases eq_or_ne g f with rfl | hg
    · rw [update_self, hholds]
      simp [Pc.token]
    · rw [update_of_ne hg]
      exact fun h => hg (hi.unique h htok)
  · rw [hh]
    exact forall_update hpc (P := fun g pc => pc.token = true → s.holds g = false) nofun fun g _ => hi.apart g
  · exact forall_update hpc (P := fun _ pc => pc.slow = true → s'.st = .lockedWithWaiters) nofun
      fun g _ => hslow g

/-- `Lock` returns, or `Unlock` is called: the fiber itself has the token instead of its `AwaitSuspend`, or the
other way round. -/
theorem Tokens.pass (hi : Tokens s) {b : Bool} (hpc : s'.pc = update s.pc f p')
    (hh : s'.holds = update s.holds f b) (hst : s'.st = s.st) (htok : s.tok f)
    (hb : p'.token = !b) (hs : p'.slow = false) : Tokens s' := by
  have hself : s'.tok f := by
    rw [State.tok, hpc, hh, update_self, update_self, hb]
    cases b
    · exact .inr rfl
    · exact .inl rfl
  refine ⟨hi.owned.congr (by rw [hst]) fun g => ?_, fun g => ?_, ?_⟩
  · rcases eq_or_ne g f with rfl | hg
    · exact ⟨fun _ => htok, fun _ => hself⟩
    · rw [State.tok, hpc, hh, update_of_ne hg, update_of_ne hg]
      rfl
  · rw [hpc, hh]
    rcases eq_or_ne g f with rfl | hg
    · rw [update_self, update_self, hb]
      exact Bool.eq_false_of_not_eq_true'
    · rw [update_of_ne hg, update_of_ne hg]
      exact hi.apart g
  · rw [hst]
    refine forall_update hpc (P := fun _ pc => pc.slow = true → s.st = .lockedWithWaiters) ?_
      fun g _ => hi.slow g
    rw [hs]
    nofun

/-- `Schedule`. -/
theorem Tokens.schedule (hi : Tokens s) (hf : s.pc f = .schedule u) (hu : s.pc u = .parked) :
    Tokens ((s.setPc u .scheduled).setPc f .runReleased) := by
  have hne : u ≠ f := by
    rintro rfl
    rw [hf] at hu
    cases hu
  have htok : s.tok f := .inr (by rw [hf]; rfl)
  have hholds : ∀ g, s.holds g = false := by
    intro g
    by_contra h
    have hg : g = f := hi.unique (.inl (by simpa using h)) htok
    exact h (hg ▸ hi.apart f (by rw [hf]; rfl))
  have hpc : ∀ g, ((s.setPc u .scheduled).setPc f .runReleased).pc g =
      if g = f then .runReleased else if g = u then .scheduled else s.pc g := by
    intro g
    simp only [State.setPc, update_apply]
  refine ⟨⟨fun h => absurd h (hi.locked htok), fun _ => ⟨u, fun g => ?_⟩⟩, fun g _ => hholds g, fun g hg => ?_⟩
  · rw [State.tok, hpc, show ((s.setPc u .scheduled).setPc f .runReleased).holds g = false from hholds g]
    split_ifs with h1 h2
    · subst h1
      simp [Pc.token, hne.symm]
    · simp [Pc.token, h2]
    · have : ¬ s.tok g := fun h => h1 (hi.unique h htok)
      simp only [State.tok, hholds g, Bool.false_eq_true, false_or] at this
      simp [this, h2]
  · rw [hpc] at hg
    split_ifs at hg with h1 h2
    · cases hg
    · cases hg
    · exact hi.slow g hg

end token

/-! ### The queue moves -/

section flow

variable [DecidableEq ι] [Fintype ι] {s s' : State ι} {f u : ι} {n : Nat}

omit [DecidableEq ι] in
theorem Inv.n_le (hi : Inv n s) : n ≤ s.q.values.length := by
  have h1 := hi.flow.taken
  have h2 := hi.queue.q.taken_lt
  have h3 := hi.queue.q.len
  omega

/-- The node of `f` is linked. -/
theorem Inv.link (hi : Inv n s) {k t : Nat} (hf : s.pc f = .put (.link k t))
    (hok : PcOk (s.q.link t k) f (.put (.swing k))) (hq : QInv (s.q.link t k)) :
    Inv n ((s.setQ (s.q.link t k)).setPc f (.put (.swing k))) := by
  have hlocked : (s.pc f).locked = true := by rw [hf]; rfl
  have hval : (s.q.nodes k).value = some f := by
    have := hi.queue.ok f
    rw [hf] at this
    exact this.2 k rfl
  have hvals : (s.q.link t k).values = s.q.values ++ [f] := by
    rw [Queue.link, hval]
    rfl
  have hslow : s.st = .lockedWithWaiters := hi.tokens.slow f (by rw [hf]; rfl)
  have htaken : s.q.taken < s.q.values.length + 1 := hi.queue.q.len ▸ hi.queue.q.taken_lt
  have hwait : ((s.setQ (s.q.link t k)).setPc f (.put (.swing k))).waiting = s.waiting ++ [f] := by
    change ((s.q.link t k).values).drop s.q.taken = _
    rw [hvals, List.drop_append_of_le_length (by omega)]
    rfl
  have hnew : f ∉ s.q.values.drop n := by
    rw [hi.flow.mem f, hf]
    rintro ⟨⟩
  refine ⟨Locks.keep hi.lock hf rfl rfl rfl, hi.queue.own hi.lock hlocked rfl hq hok,
    hi.tokens.stay rfl rfl rfl (by rw [hf]; rfl) fun _ => hslow, ?_, ?_⟩
  · refine Waiters.own hi.lock hlocked rfl (fun _ => ?_) (by rintro _ _ ⟨⟩)
    rw [hwait]
    exact ⟨fun _ => by simp, fun _ => hslow⟩
  · have hdrop : (s.q.link t k).values.drop n = s.q.values.drop n ++ [f] := by
      rw [hvals, List.drop_append_of_le_length hi.n_le]
    have hsum := fun m : Pc ι → Nat => sum_move (s := s)
      (t := (s.setQ (s.q.link t k)).setPc f (.put (.swing k))) m rfl
    have h1 := hsum Pc.handing
    have h2 := hsum Pc.uncounted
    have h3 := hsum Pc.unsized
    rw [hf] at h1 h2 h3
    refine ⟨hi.flow.taken.trans (congrArg _ h1.symm), ?_, hi.flow.removed.trans (congrArg _ h3.symm),
      ?_, ?_, fun u => ?_, fun hlt u hu => ?_⟩
    · change (s.q.link t k).values.length = s.q.added + _
      have h0 : (Pc.put (.link k t) : Pc ι).uncounted = 0 := rfl
      have h1 : (Pc.put (.swing k) : Pc ι).uncounted = 1 := rfl
      rw [hvals, List.length_append, List.length_singleton, hi.flow.added]
      omega
    · refine forall_update (s := s) rfl
        (P := fun _ pc => ∀ u, pc.got = some u → (s.q.link t k).values[s.q.taken - 1]? = some u) (by rintro _ ⟨⟩)
        fun g _ u hg => ?_
      have hgot := hi.flow.got g u hg
      obtain ⟨hlt, -⟩ := List.getElem?_eq_some_iff.1 hgot
      rw [hvals, List.getElem?_append_left hlt]
      exact hgot
    · change ((s.q.link t k).values.drop n).Nodup
      rw [hdrop]
      exact List.nodup_append.2 ⟨hi.flow.nodup, List.nodup_singleton f, fun a ha b hb => by
        rw [List.mem_singleton] at hb
        rintro rfl
        exact hnew (hb ▸ ha)⟩
    · change u ∈ (s.q.link t k).values.drop n ↔ (update s.pc f (.put (.swing k)) u).inQueue = true
      rw [hdrop, List.mem_append, List.mem_singleton, hi.flow.mem u]
      rcases eq_or_ne u f with rfl | hu
      · rw [update_self]
        simp [Pc.inQueue, PutPc.priv]
      · rw [update_of_ne hu]
        simp [hu]
    · have hlt : n < s.q.taken := hlt
      have hu : (s.q.link t k).values[n]? = some u := hu
      rw [hvals, List.getElem?_append_left (by omega)] at hu
      have hpark := hi.flow.handed hlt u hu
      have hne : u ≠ f := by
        rintro rfl
        rw [hf] at hpark
        cases hpark
      exact (update_of_ne hne ..).trans hpark

/-- `size_` is incremented. -/
theorem Inv.bump (hi : Inv n s) (hf : s.pc f = .put .bump) :
    Inv n ((s.setQ s.q.addSize).setPc f (.put .done)) := by
  have hlocked : (s.pc f).locked = true := by rw [hf]; rfl
  refine ⟨Locks.keep hi.lock hf rfl rfl rfl,
    hi.queue.own hi.lock hlocked rfl hi.queue.q.addSize ⟨trivial, nofun⟩,
    hi.tokens.stay rfl rfl rfl (by rw [hf]; rfl) fun _ => hi.tokens.slow f (by rw [hf]; rfl),
    hi.waiters.frame rfl Iff.rfl rfl (by rw [hf]; rfl) nofun, ?_⟩
  refine hi.flow.move rfl rfl ?_ ?_ ?_ (by rw [hf]; rfl) (by rw [hf]; nofun)
    (forall_update (s := s) rfl (P := fun _ pc => ∀ u, pc.got = some u → s.q.values[s.q.taken - 1]? = some u)
      nofun fun g _ => hi.flow.got g) (.inl rfl) <;> rw [hf] <;> rfl

/-- `head_` moves. -/
theorem Inv.advance (hi : Inv n s) {h : Nat} {next : Ptr} (hf : s.pc f = .take (.casHead h next))
    (hq : QInv (s.q.advance next)) (hok : PcOk (s.q.advance next) f (.take (.readNext3 h))) :
    Inv n ((s.setQ (s.q.advance next)).setPc f (.take (.readNext3 h))) := by
  have hlocked : (s.pc f).locked = true := by rw [hf]; rfl
  have htok : s.tok f := .inr (by rw [hf]; rfl)
  have htaken : s.q.taken = n := by
    have := hi.flow.taken
    rwa [hi.tokens.sum_handing htok, hf] at this
  refine ⟨Locks.keep hi.lock hf rfl rfl rfl, hi.queue.own hi.lock hlocked rfl hq hok,
    hi.tokens.stay rfl rfl rfl (by rw [hf]; rfl) fun _ => hi.tokens.slow f (by rw [hf]; rfl),
    Waiters.own hi.lock hlocked rfl nofun nofun, ?_⟩
  refine hi.flow.move rfl rfl ?_ ?_ ?_ (by rw [hf]; rfl) (by rw [hf]; nofun) ?_ (.inr fun u hu => ?_)
  · rw [hf]
    rfl
  · rw [hf]
    rfl
  · rw [hf]
    change s.q.taken + 1 + s.q.removed + 0 = s.q.taken + s.q.removed + 1
    omega
  · refine forall_update (s := s) rfl (P := fun _ pc => ∀ u, pc.got = some u →
      s.q.values[s.q.taken + 1 - 1]? = some u) nofun fun g hg u hgu => ?_
    exact absurd (hi.tokens.unique (.inr (Pc.token_of_got hgu)) htok) hg
  · -- whoever is in the queue and does not have `mtx_` is parked
    have hmem : u ∈ s.q.values.drop n := by
      obtain ⟨hlt, rfl⟩ := List.getElem?_eq_some_iff.1 hu
      rw [List.drop_eq_getElem_cons hlt]
      exact List.mem_cons_self
    have hin := (hi.flow.mem u).1 hmem
    have hne : u ≠ f := by
      rintro rfl
      rw [hf] at hin
      cases hin
    have hunlocked : (s.pc u).locked ≠ true := fun h => hne (hi.lock.unique u f h hlocked)
    cases hpc : s.pc u <;> rw [hpc] at hin hunlocked <;>
      first | rfl | exact absurd rfl hunlocked | cases hin

/-- `size_` is decremented. -/
theorem Inv.subSize (hi : Inv n s) {item : ι} (hf : s.pc f = .take (.subSize item))
    (hok : PcOk s.q.subSize f (.take (.done (some item)))) :
    Inv n ((s.setQ s.q.subSize).setPc f (.take (.done (some item)))) := by
  have hlocked : (s.pc f).locked = true := by rw [hf]; rfl
  refine ⟨Locks.keep hi.lock hf rfl rfl rfl,
    hi.queue.own hi.lock hlocked rfl hi.queue.q.subSize hok,
    hi.tokens.stay rfl rfl rfl (by rw [hf]; rfl) fun _ => hi.tokens.slow f (by rw [hf]; rfl),
    hi.waiters.frame rfl Iff.rfl rfl (by rw [hf]; rfl) nofun, ?_⟩
  refine hi.flow.move rfl rfl ?_ ?_ ?_ (by rw [hf]; rfl) (by rw [hf]; nofun) ?_ (.inl rfl)
  · rw [hf]
    rfl
  · rw [hf]
    rfl
  · rw [hf]
    change s.q.taken + s.q.removed + 1 = s.q.taken + (s.q.removed + 1) + 0
    omega
  · refine forall_update (s := s) rfl (P := fun _ pc => ∀ u, pc.got = some u →
      s.q.values[s.q.taken - 1]? = some u) (fun u hu => ?_) fun g _ => hi.flow.got g
    exact hi.flow.got f u (by rw [hf]; exact hu)

omit [DecidableEq ι] in
/-- The next fiber to be scheduled is the one that was taken. -/
theorem Inv.taken_eq (hi : Inv n s) (htok : (s.pc f).token = true) (hh : (s.pc f).handing = 1) :
    s.q.taken = n + 1 := by
  have := hi.flow.taken
  rwa [hi.tokens.sum_handing (.inr htok), hh] at this

omit [DecidableEq ι] in
/-- It heads the parked ones. -/
theorem Inv.got_head (hi : Inv n s) (hf : s.q.taken = n + 1) (hg : (s.pc f).got = some u) :
    s.q.values.drop n = u :: s.q.values.drop (n + 1) := by
  have hgot := hi.flow.got f u hg
  rw [hf, Nat.add_sub_cancel] at hgot
  obtain ⟨hlt, hu⟩ := List.getElem?_eq_some_iff.1 hgot
  rw [List.drop_eq_getElem_cons hlt]
  exact congrArg (· :: _) hu

omit [DecidableEq ι] in
theorem Inv.got_parked (hi : Inv n s) (hf : s.pc f = .schedule u) : s.pc u = .parked := by
  have htaken := hi.taken_eq (f := f) (by rw [hf]; rfl) (by rw [hf]; rfl)
  have hgot := hi.flow.got f u (by rw [hf]; rfl)
  rw [htaken, Nat.add_sub_cancel] at hgot
  exact hi.flow.handed (by omega) u hgot

/-- `Schedule`. -/
theorem Inv.schedule (hi : Inv n s) (hf : s.pc f = .schedule u) :
    Inv (n + 1) ((s.setPc u .scheduled).setPc f .runReleased) := by
  have hu := hi.got_parked hf
  have hne : u ≠ f := by
    rintro rfl
    rw [hf] at hu
    cases hu
  have htok : s.tok f := .inr (by rw [hf]; rfl)
  have htaken := hi.taken_eq (f := f) (by rw [hf]; rfl) (by rw [hf]; rfl)
  have hhead := hi.got_head htaken (f := f) (u := u) (by rw [hf]; rfl)
  have hnodup := hi.flow.nodup
  rw [hhead, List.nodup_cons] at hnodup
  -- first `u`, then `f`
  have hlock : Locks (s.setPc u .scheduled) := Locks.keep hi.lock hu rfl rfl rfl
  have hwait : Waiters (s.setPc u .scheduled) :=
    hi.waiters.frame rfl Iff.rfl rfl (by rw [hu]; rfl) nofun
  have hqueue : QueueOk (s.setPc u .scheduled) := hi.queue.frame rfl rfl trivial
  have hf' : (s.setPc u .scheduled).pc f = .schedule u := by
    exact (update_of_ne hne.symm ..).trans hf
  refine ⟨hlock.keep hf' rfl rfl rfl, hqueue.frame rfl rfl trivial, hi.tokens.schedule hf hu,
    hwait.frame rfl Iff.rfl rfl (by rw [hf']; rfl) nofun, ?_⟩
  have hsum := fun k : Pc ι → Nat => sum_move (s := s) (t := s.setPc u .scheduled) k rfl
  have hsum' := fun k : Pc ι → Nat => sum_move (s := s.setPc u .scheduled)
    (t := (s.setPc u .scheduled).setPc f .runReleased) k rfl
  simp only [hu] at hsum
  simp only [hf'] at hsum'
  refine ⟨?_, ?_, ?_, ?_, hnodup.2, fun v => ?_, fun hlt => ?_⟩
  · have h1 : _ + 0 = _ + 0 := hsum Pc.handing
    have h2 : _ + 1 = _ + 0 := hsum' Pc.handing
    have h3 := hi.flow.taken
    have h4 : s.q.taken = n + 1 := htaken
    change s.q.taken = n + 1 + _
    omega
  · have h1 := hsum Pc.uncounted
    have h2 := hsum' Pc.uncounted
    exact hi.flow.added.trans (congrArg _ (h1.symm.trans h2.symm))
  · have h1 := hsum Pc.unsized
    have h2 := hsum' Pc.unsized
    exact hi.flow.removed.trans (congrArg _ (h1.symm.trans h2.symm))
  · refine forall_update (s := s.setPc u .scheduled) rfl (P := fun _ pc => ∀ v, pc.got = some v →
      s.q.values[s.q.taken - 1]? = some v) nofun fun g hg => ?_
    exact forall_update (s := s) (t := s.setPc u .scheduled) rfl (P := fun _ pc => ∀ v, pc.got = some v →
      s.q.values[s.q.taken - 1]? = some v) nofun (fun g _ => hi.flow.got g) g
  · have hv := hi.flow.mem v
    rw [hhead, List.mem_cons] at hv
    change v ∈ s.q.values.drop (n + 1) ↔ (update (update s.pc u .scheduled) f .runReleased v).inQueue = true
    rcases eq_or_ne v f with rfl | hvf
    · rw [update_self]
      rw [hf] at hv
      exact ⟨fun h => absurd (hv.1 (.inr h)) nofun, nofun⟩
    · rw [update_of_ne hvf]
      rcases eq_or_ne v u with rfl | hvu
      · rw [update_self]
        exact ⟨fun h => absurd h hnodup.1, nofun⟩
      · rw [update_of_ne hvu, ← hv]
        simp [hvu]
  · exact absurd (show n + 1 < s.q.taken from hlt) (by omega)

end flow

/-! ### The steps -/

section steps

variable [DecidableEq ι] [Fintype ι] {s s' : State ι} {f u : ι} {n : Nat} {h : History (State ι) (Act ι)}

/-- A step that leaves the values and the counters of the queue alone. -/
theorem Inv.queueStay (hi : Inv n s) {p p' : Pc ι} {q' : Queue ι} (hf : s.pc f = p)
    (hp : p.locked = true) (hp' : p'.locked = true) (hsame : Same p p') (hq : QInv q')
    (hok : PcOk q' f p') (hslow : p'.slow = true → s.st = .lockedWithWaiters)
    (hstore : ∀ u e, p' ≠ .storeSt u e) (hv : q'.values = s.q.values) (ht : q'.taken = s.q.taken)
    (ha : q'.added = s.q.added) (hr : q'.removed = s.q.removed)
    (hgot : ∀ u, p'.got = some u → s.q.values[s.q.taken - 1]? = some u) :
    Inv n ((s.setQ q').setPc f p') := by
  obtain ⟨h1, h2, h3, h4, h5, h6, h7⟩ := hsame
  have hlocks : Locks ((s.setQ q').setPc f p') := Locks.keep hi.lock hf rfl rfl (hp'.trans hp.symm)
  subst hf
  have hw : ((s.setQ q').setPc f p').waiting = s.waiting := by
    change q'.values.drop q'.taken = _
    rw [hv, ht]
    rfl
  exact ⟨hlocks, hi.queue.own hi.lock hp rfl hq hok, hi.tokens.stay rfl rfl rfl h1 hslow,
    hi.waiters.frame rfl Iff.rfl hw h2 fun u e h => absurd h (hstore u e),
    hi.flow.frame rfl hv ht ha hr h3 h4 h5 h6 h7 hgot⟩

theorem Inv.put_step (hi : Inv n s) {pc pc' : PutPc} {q' : Queue ι} {sp : Bool} {o : Ptr}
    (hf : s.pc f = .put pc) (hs : putStep s.q sp o pc = some (q', pc')) :
    Inv n ((s.setQ q').setPc f (.put pc')) := by
  have hok : PcOk s.q f (.put pc) := hf ▸ hi.queue.ok f
  have he := putStep_effect hi.queue.q hok.1 hs
  have hput := putStep_ok hi.queue.q hok.1 hs
  have hslow : s.st = .lockedWithWaiters := hi.tokens.slow f (by rw [hf]; rfl)
  cases he with
  | @move _ _ t mem priv phase =>
    refine hi.queueStay hf rfl rfl ?_ (hi.queue.q.setTail mem) ⟨hput, ?_⟩ (fun _ => hslow) nofun rfl rfl rfl
      rfl nofun
    · exact ⟨rfl, by simp only [Pc.between, priv], rfl, by simp only [Pc.uncounted, phase], rfl,
        by simp only [Pc.inQueue, priv], nofun⟩
    · rw [priv]
      exact hok.2
  | link mem last new => exact hi.link hf ⟨hput, nofun⟩ (hi.queue.q.link mem last new)
  | bump => exact hi.bump hf

omit [DecidableEq ι] in
/-- As long as the one in `Take` has taken nothing, there is something to take. -/
theorem Inv.waiting_ne (hi : Inv n s) {pc : TakePc ι} (hf : s.pc f = .take pc) (hp : past pc = false) :
    s.waiting ≠ [] := by
  have hslow : s.st = .lockedWithWaiters := hi.tokens.slow f (by rw [hf]; rfl)
  refine (hi.waiters.iff fun g => ?_).1 hslow
  by_contra h
  have hb : (s.pc g).between = true := by simpa using h
  have hg : g = f := hi.lock.unique g f (Pc.locked_of_between hb) (by rw [hf]; rfl)
  rw [hg, hf] at hb
  exact absurd (hp.symm.trans hb) nofun

omit [DecidableEq ι] [Fintype ι] in
theorem got_of_takeOk {q : Queue ι} {pc : TakePc ι} (h : TakeOk q pc)
    (hu : (Pc.take pc).got = some u) : q.values[q.taken - 1]? = some u := by
  cases pc with
  | retire k v =>
    obtain ⟨j, h1, -, h3⟩ := h
    obtain rfl := Option.some.inj hu
    rwa [h1]
  | subSize v =>
    obtain ⟨j, h1, h3⟩ := h
    obtain rfl := Option.some.inj hu
    rwa [h1]
  | done r =>
    cases r with
    | none => cases hu
    | some v =>
      obtain ⟨j, h1, h3⟩ := h
      obtain rfl := Option.some.inj hu
      rwa [h1]
  | _ => cases hu

omit [DecidableEq ι] [Fintype ι] in
theorem past_eq {pc : TakePc ι} (hd : pc.isDone = false) : past pc = (pc.unsized == 1) := by
  cases pc <;> first | rfl | cases hd

theorem Inv.take_step (hi : Inv n s) {pc pc' : TakePc ι} {q' : Queue ι} {sp : Bool}
    (hf : s.pc f = .take pc) (hs : takeStep s.q sp pc = some (q', pc')) :
    Inv n ((s.setQ q').setPc f (.take pc')) := by
  have hok : PcOk s.q f (.take pc) := hf ▸ hi.queue.ok f
  obtain ⟨he, htake⟩ := takeStep_effect hi.queue.q hok.1 hs
  have hslow : s.st = .lockedWithWaiters := hi.tokens.slow f (by rw [hf]; rfl)
  have hq := he.inv hi.queue.q
  cases he with
  | stay retired sized done =>
    have hd : pc.isDone = false := by cases pc <;> first | rfl | cases hs
    have hd' : pc'.isDone = false := by
      by_contra h
      have h : pc'.isDone = true := by simpa using h
      obtain ⟨rfl, hle⟩ := done h
      have hp : past pc = false := by
        rw [past_eq hd, ← sized]
        rfl
      exact hi.waiting_ne hf hp (List.drop_eq_nil_of_le hle)
    have hpast : past pc' = past pc := by rw [past_eq hd, past_eq hd', sized]
    refine hi.queueStay hf rfl rfl ⟨rfl, hpast, by simp only [Pc.handing, hpast], rfl, sized, rfl, nofun⟩ hq
      ⟨htake, fun h => ?_⟩ (fun _ => hslow) nofun rfl rfl rfl rfl fun u hu => got_of_takeOk htake hu
    rw [h] at hd'
    cases hd'
  | advance head next => exact hi.advance hf hq ⟨htake, nofun⟩
  | @moveOut k nh item mem =>
    have hgot := fun u => got_of_takeOk (u := u) htake
    exact hi.queueStay hf rfl rfl ⟨rfl, rfl, rfl, rfl, rfl, rfl, nofun⟩ hq ⟨htake, nofun⟩ (fun _ => hslow)
      nofun rfl rfl rfl rfl hgot
  | @retire k item =>
    obtain ⟨h1, h2, h3, h4⟩ := retire_histories s.q k
    exact hi.queueStay hf rfl rfl ⟨rfl, rfl, rfl, rfl, rfl, rfl, nofun⟩ hq ⟨htake, nofun⟩ (fun _ => hslow) nofun
      h1 h2 h3 h4 fun u hu => by rw [← h1, ← h2]; exact got_of_takeOk htake hu
  | subSize => exact hi.subSize hf ⟨htake, nofun⟩

omit [DecidableEq ι] [Fintype ι] in
theorem Pc.locked_or_token {pc : Pc ι} (h : pc.slow = true) : pc.locked = true ∨ pc.token = true := by
  cases pc <;> first | exact .inl rfl | exact .inr rfl | cases h

omit [DecidableEq ι] in
/-- The fibers in `park_q_` are different ones. -/
theorem Inv.waiting_few (hi : Inv n s) : s.waiting.length ≤ Fintype.card ι := by
  have hle : n ≤ s.q.taken := by
    have := hi.flow.taken
    omega
  have hsub : s.waiting <:+ s.q.values.drop n := by
    rw [State.waiting, show s.q.taken = n + (s.q.taken - n) by omega, ← List.drop_drop]
    exact List.drop_suffix ..
  exact (hi.flow.nodup.sublist hsub.sublist).length_le_card

omit [DecidableEq ι] in
/-- What `IsEmpty` reads while nobody is in `Put`. -/
theorem Inv.isEmpty_iff (hi : Inv n s) (hfew : Fintype.card ι < 2 ^ 64) (hf : s.pc f = .readEmpty u) :
    s.q.isEmpty = true ↔ s.waiting = [] := by
  have hadded := hi.flow.added
  rw [sum_uncounted (f := f) hi.lock (by rw [hf]; rfl), hf] at hadded
  have hremoved := hi.flow.removed
  rw [hi.tokens.sum_unsized (f := f) (.inr (by rw [hf]; rfl)), hf] at hremoved
  have hadded : s.q.values.length = s.q.added := hadded
  have hremoved : s.q.taken = s.q.removed := hremoved
  have hsize := hi.queue.q.size
  have hlt := hi.queue.q.taken_lt
  have hlen := hi.queue.q.len
  have hfew' := hi.waiting_few
  have hwait : s.waiting.length = s.q.values.length - s.q.taken := List.length_drop ..
  have hbound := s.q.size.toNat_lt
  have htoNat : s.q.size.toNat = s.waiting.length := by omega
  rw [Queue.isEmpty, beq_iff_eq, ← List.length_eq_zero_iff, ← htoNat, ← UInt64.toNat_inj]
  rfl

/-- `st_` is set right. -/
theorem Inv.storeSt (hi : Inv n s) {e : Bool} (hf : s.pc f = .storeSt u e) :
    Inv n ((s.setSt (if e then .lockedNoWaiter else .lockedWithWaiters)).setPc f (.unlockTaken u)) := by
  have hlocked : (s.pc f).locked = true := by rw [hf]; rfl
  have htok : s.tok f := .inr (by rw [hf]; rfl)
  have hstore := hi.waiters.store f u e hf
  have hst : (if e then Status.lockedNoWaiter else .lockedWithWaiters) ≠ .none := by
    split <;> nofun
  refine ⟨Locks.keep hi.lock hf rfl rfl rfl, hi.queue.frame rfl rfl trivial,
    hi.tokens.frame rfl rfl ⟨fun h => absurd h hst, fun h => absurd h (hi.tokens.locked htok)⟩
      (by rw [hf]; rfl) nofun fun g hg hslow => ?_,
    Waiters.own hi.lock hlocked rfl (fun _ => ?_) nofun,
    hi.flow.frame rfl rfl rfl rfl rfl (by rw [hf]; rfl) (by rw [hf]; rfl) (by rw [hf]; rfl) (by rw [hf]; rfl)
      (by rw [hf]; nofun) fun v hv => hi.flow.got f v (by rw [hf]; exact hv)⟩
  · rcases Pc.locked_or_token hslow with h | h
    · exact absurd (hi.lock.unique g f h hlocked) hg
    · exact absurd (hi.tokens.unique (.inr h) htok) hg
  · change (if e then Status.lockedNoWaiter else .lockedWithWaiters) = .lockedWithWaiters ↔ s.waiting ≠ []
    cases e with
    | true => exact ⟨nofun, fun h => absurd (hstore.1 rfl) h⟩
    | false => exact ⟨fun _ h => absurd (hstore.2 h) nofun, fun _ => rfl⟩

/-- `Put` begins. -/
theorem Inv.beginPut (hi : Inv n s) {p : Pc ι} (hf : s.pc f = p) (hp : p.locked = true)
    (hmoves : p ≠ .parked ∧ p.handing = 0 ∧ p.uncounted = 0 ∧ p.unsized = 0 ∧ p.inQueue = false ∧ p.token = false)
    (hst : s.st ≠ .none) : Inv n ((s.setSt .lockedWithWaiters).beginPut f) := by
  obtain ⟨h0, h1, h2, h3, h4, h5⟩ := hmoves
  have hok : PcOk (s.q.newNode f) f (.put (.loadTail s.q.allocs)) := by
    refine ⟨private_newNode hi.queue.q f, fun m hm => ?_⟩
    obtain rfl := Option.some.inj hm
    simp [Queue.newNode]
  have hlocked : (s.pc f).locked = true := hf ▸ hp
  refine ⟨Locks.keep hi.lock hf rfl rfl hp.symm,
    hi.queue.own hi.lock hlocked rfl (hi.queue.q.newNode f) hok,
    hi.tokens.frame rfl rfl ⟨(by rintro ⟨⟩), fun h => absurd h hst⟩ (by rw [hf, h5]; rfl) (fun _ => rfl) fun _ _ _ => rfl,
    Waiters.own hi.lock hlocked rfl (by rintro ⟨⟩) (by rintro _ _ ⟨⟩),
    hi.flow.frame rfl rfl rfl rfl rfl (by rw [hf, h1]; rfl) (by rw [hf, h2]; rfl) (by rw [hf, h3]; rfl)
      (by rw [hf, h4]; rfl) (hf ▸ h0) (by rintro _ ⟨⟩)⟩

/-- `Lock` returns, or `Unlock` is called. -/
theorem Inv.pass (hi : Inv n s) {p p' : Pc ι} {b : Bool} (hf : s.pc f = p) (htok : s.tok f)
    (hb : p'.token = !b) (hs : p'.slow = false) (hp : p'.locked = false ∧ p.locked = false ∧ p' ≠ .thrown)
    (hsame : p'.between = p.between ∧ p'.handing = p.handing ∧ p'.uncounted = p.uncounted ∧
      p'.unsized = p.unsized ∧ p'.inQueue = p.inQueue ∧ p ≠ .parked)
    (hgot : p'.got = none) (hstore : ∀ u e, p' ≠ .storeSt u e) :
    Inv n ((s.setHolds f b).setPc f p') := by
  obtain ⟨h1, h2, h3, h4, h5, h6⟩ := hsame
  subst hf
  refine ⟨Locks.keep hi.lock rfl rfl rfl (hp.1.trans hp.2.1.symm),
    hi.queue.frame rfl rfl (pcOk_of_unlocked hp.1 hp.2.2), hi.tokens.pass rfl rfl rfl htok hb hs,
    hi.waiters.frame rfl Iff.rfl rfl h1 fun u e h => absurd h (hstore u e),
    hi.flow.frame rfl rfl rfl rfl rfl h2 h3 h4 h5 h6 fun u hu => ?_⟩
  rw [hgot] at hu
  cases hu

/-- How many fibers the next step schedules. -/
def Pc.scheds : Pc ι → Nat
  | .schedule _ => 1
  | _ => 0

theorem Inv.fiber_step (hi : Inv n s) (hfew : Fintype.card ι < 2 ^ 64) {sp : Bool} {o : Ptr}
    (hs : fiberStep s f sp o = some s') : Inv (n + (s.pc f).scheds) s' := by
  have hlocked : ∀ {p}, s.pc f = p → p.locked = true → (s.pc f).locked = true := fun h hp => h ▸ hp
  unfold fiberStep at hs
  cases hf : s.pc f <;> simp only [hf] at hs
  case idle => cases hs
  case parked => cases hs
  case thrown => cases hs
  case casNone =>
    split at hs <;> obtain rfl := Option.some.inj hs
    · next hst =>
      refine ⟨Locks.keep hi.lock hf rfl rfl rfl, hi.queue.frame rfl rfl trivial,
        hi.tokens.acquire hst rfl rfl rfl, hi.waiters.frame rfl ?_ rfl (by rw [hf]; rfl) nofun,
        hi.flow.frame rfl rfl rfl rfl rfl (by rw [hf]; rfl) (by rw [hf]; rfl) (by rw [hf]; rfl)
          (by rw [hf]; rfl) (by rw [hf]; nofun) nofun⟩
      rw [hst]
      exact ⟨nofun, nofun⟩
    · exact hi.stay hf rfl rfl rfl rfl (Locks.keep hi.lock hf rfl rfl rfl)
        ⟨rfl, rfl, rfl, rfl, rfl, rfl, nofun⟩ trivial nofun nofun nofun
  case lockMtx =>
    split at hs
    · cases hs
    · next hm =>
      obtain rfl := Option.some.inj hs
      exact hi.stay hf rfl rfl rfl rfl (Locks.acquire hi.lock (by simpa using hm) rfl rfl rfl)
        ⟨rfl, rfl, rfl, rfl, rfl, rfl, nofun⟩ trivial nofun nofun nofun
  case loadSt =>
    split at hs <;> obtain rfl := Option.some.inj hs
    · next hst =>
      have hset : s.setSt .lockedWithWaiters = s := by rw [State.setSt, ← hst]
      have := hi.beginPut hf rfl ⟨nofun, rfl, rfl, rfl, rfl, rfl⟩ (by rw [hst]; nofun)
      rwa [hset] at this
    · exact hi.stay hf rfl rfl rfl rfl (Locks.keep hi.lock hf rfl rfl rfl)
        ⟨rfl, rfl, rfl, rfl, rfl, rfl, nofun⟩ trivial nofun nofun nofun
  case casWaiters =>
    split at hs <;> obtain rfl := Option.some.inj hs
    · next hst => exact hi.beginPut hf rfl ⟨nofun, rfl, rfl, rfl, rfl, rfl⟩ (by rw [hst]; nofun)
    · exact hi.stay hf rfl rfl rfl rfl (Locks.keep hi.lock hf rfl rfl rfl)
        ⟨rfl, rfl, rfl, rfl, rfl, rfl, nofun⟩ trivial nofun nofun nofun
  case put pc =>
    cases pc with
    | done =>
      obtain rfl := Option.some.inj hs
      exact hi.stay hf rfl rfl rfl rfl (Locks.keep hi.lock hf rfl rfl rfl)
        ⟨rfl, rfl, rfl, rfl, rfl, rfl, nofun⟩ trivial (fun _ => hi.tokens.slow f (by rw [hf]; rfl)) nofun nofun
    | _ =>
      obtain ⟨⟨q', pc'⟩, hx, rfl⟩ := Option.map_eq_some_iff.1 hs
      exact hi.put_step hf hx
  case unlockParked =>
    obtain rfl := Option.some.inj hs
    exact hi.stay hf rfl rfl rfl rfl (Locks.release hi.lock hf rfl rfl rfl rfl)
      ⟨rfl, rfl, rfl, rfl, rfl, rfl, nofun⟩ trivial nofun nofun nofun
  case unlockRetry =>
    obtain rfl := Option.some.inj hs
    exact hi.stay hf rfl rfl rfl rfl (Locks.release hi.lock hf rfl rfl rfl rfl)
      ⟨rfl, rfl, rfl, rfl, rfl, rfl, nofun⟩ trivial nofun nofun nofun
  case runAcquired =>
    obtain rfl := Option.some.inj hs
    exact hi.pass hf (.inr (by rw [hf]; rfl)) rfl rfl ⟨rfl, rfl, nofun⟩ ⟨rfl, rfl, rfl, rfl, rfl, nofun⟩ rfl nofun
  case scheduled =>
    obtain rfl := Option.some.inj hs
    exact hi.pass hf (.inr (by rw [hf]; rfl)) rfl rfl ⟨rfl, rfl, nofun⟩ ⟨rfl, rfl, rfl, rfl, rfl, nofun⟩ rfl nofun
  case casFree =>
    split at hs <;> obtain rfl := Option.some.inj hs
    · next hst =>
      refine ⟨Locks.keep hi.lock hf rfl rfl rfl, hi.queue.frame rfl rfl trivial,
        hi.tokens.release hf hst rfl rfl rfl, hi.waiters.frame rfl ?_ rfl (by rw [hf]; rfl) nofun,
        hi.flow.frame rfl rfl rfl rfl rfl (by rw [hf]; rfl) (by rw [hf]; rfl) (by rw [hf]; rfl)
          (by rw [hf]; rfl) (by rw [hf]; nofun) nofun⟩
      rw [hst]
      exact ⟨nofun, nofun⟩
    · next hst =>
      -- the lock is not free, so it was `LockedWithWaiters`
      have hne := hi.tokens.locked (f := f) (.inr (by rw [hf]; rfl))
      have hslow : s.st = .lockedWithWaiters := by
        cases hs : s.st with
        | none => exact absurd hs hne
        | lockedNoWaiter => exact absurd hs hst
        | lockedWithWaiters => rfl
      exact hi.stay hf rfl rfl rfl rfl (Locks.keep hi.lock hf rfl rfl rfl)
        ⟨rfl, rfl, rfl, rfl, rfl, rfl, nofun⟩ trivial (fun _ => hslow) nofun nofun
  case lockTake =>
    split at hs
    · cases hs
    · next hm =>
      obtain rfl := Option.some.inj hs
      exact hi.stay hf rfl rfl rfl rfl (Locks.acquire hi.lock (by simpa using hm) rfl rfl rfl)
        ⟨rfl, rfl, rfl, rfl, rfl, rfl, nofun⟩ ⟨trivial, nofun⟩ (fun _ => hi.tokens.slow f (by rw [hf]; rfl))
        nofun nofun
  case take pc =>
    have hok : PcOk s.q f (.take pc) := hf ▸ hi.queue.ok f
    have hslow : s.st = .lockedWithWaiters := hi.tokens.slow f (by rw [hf]; rfl)
    cases pc with
    | done r =>
      cases r with
      | none => exact absurd rfl hok.2
      | some v =>
        obtain rfl := Option.some.inj hs
        exact hi.stay hf rfl rfl rfl rfl (Locks.keep hi.lock hf rfl rfl rfl)
          ⟨rfl, rfl, rfl, rfl, rfl, rfl, nofun⟩ trivial (fun _ => hslow) nofun
          fun w hw => hi.flow.got f w (by rw [hf]; exact hw)
    | _ =>
      obtain ⟨⟨q', pc'⟩, hx, rfl⟩ := Option.map_eq_some_iff.1 hs
      exact hi.take_step hf hx
  case readEmpty v =>
    obtain rfl := Option.some.inj hs
    refine hi.stay hf rfl rfl rfl rfl (Locks.keep hi.lock hf rfl rfl rfl)
      ⟨rfl, rfl, rfl, rfl, rfl, rfl, nofun⟩ trivial (fun _ => hi.tokens.slow f (by rw [hf]; rfl))
      (fun w e he => ?_) fun w hw => hi.flow.got f w (by rw [hf]; exact hw)
    obtain ⟨-, rfl⟩ := Pc.storeSt.inj he
    exact hi.isEmpty_iff hfew hf
  case storeSt v e =>
    obtain rfl := Option.some.inj hs
    exact hi.storeSt hf
  case unlockTaken v =>
    obtain rfl := Option.some.inj hs
    exact hi.stay hf rfl rfl rfl rfl (Locks.release hi.lock hf rfl rfl rfl rfl)
      ⟨rfl, rfl, rfl, rfl, rfl, rfl, nofun⟩ trivial nofun nofun
      fun w hw => hi.flow.got f w (by rw [hf]; exact hw)
  case schedule v =>
    obtain rfl := Option.some.inj hs
    exact hi.schedule hf
  case runReleased =>
    obtain rfl := Option.some.inj hs
    exact hi.stay hf rfl rfl rfl rfl (Locks.keep hi.lock hf rfl rfl rfl)
      ⟨rfl, rfl, rfl, rfl, rfl, rfl, nofun⟩ trivial nofun nofun nofun

end steps

end Fibers.Mutex
