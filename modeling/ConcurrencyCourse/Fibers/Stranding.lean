import ConcurrencyCourse.Fibers.WaitGroup

/-!
# Who is left in `fibers::WaitGroup` (fibers/mutex/exe/fibers/sync/wait_group.hpp)

The group of `Fibers/WaitGroup.lean`, used for as many rounds as one likes: an `Add` may come after the countdown
has been zero. Then more than one `Done` may be in the loop (45-56), and a `Take` may find nothing:
`fiber_opt.value()` throws, and the `Done` is over. Two things are left out there: before it throws, that `Done` may
find the queue empty and store `true` once more (46-52), and two `Take`s at a time are more than `wait_q_` is made for,
which is a list here. Neither happens while there is no `Add` after a zero (`WaitInv.more`).

| here | there |
| --- | --- |
| `step` | the steps of `Fibers/WaitGroup.lean`, and the `Take` (46) that finds nothing |
| `usage` | every `Done` has its own `Add` |
| `stranded` | nobody is in `Done`, and somebody waits for one |

A fiber that is suspended is in one place: its `AwaitSuspend` has not let go of it yet, or it is in the queue, or
a `Done` has taken it (`tokens`). Whoever schedules it takes it from there.

A waiter that finds the countdown at zero spins until a `Done` says that it is through with the queue. When there
was no `Done`, nobody ever says so (`waits_for_no_done`).
-/

namespace Fibers.WaitGroup.Stranding

open Transition Function

section model

variable {δ ω : Type} [DecidableEq δ] [DecidableEq ω]

def step (s : State δ ω) : Act δ ω → Option (State δ ω)
  | .done d => if s.done d = .take ∧ s.queue = [] then some (s.setDone d .returned) else doneStep s d
  | a => WaitGroup.step s a

variable (δ ω) in
def system : System (State δ ω) (Act δ ω) := ⟨fun s => s = init, step⟩

/-- Every `Done` has its own `Add`, and fewer than `2^32` `Done`s are to come at a time. -/
def usage (s : State δ ω) : Act δ ω → Prop
  | .add count => s.countdown + count < 2 ^ 32
  | .callDone _ => 0 < s.owed
  | _ => True

/-! ### What it is for -/

/-- Nobody is in `Done`. -/
def noDone (s : State δ ω) : Prop := ∀ d, s.done d = .idle ∨ s.done d = .returned

/-- The countdown is at zero, and a waiter is in the queue, or spins. -/
def stranded (s : State δ ω) : Prop :=
  s.countdown = 0 ∧ noDone s ∧ ∃ w, w ∈ s.queue ∨ s.await w = .spin ∧ s.completed = false

/-- The countdown is at zero, and no `Done` and no `AwaitSuspend` has anything left to do, or can do it. -/
def settled (s : State δ ω) : Prop := s.countdown = 0 ∧ noDone s ∧ ∀ w, awaitStep s w = none

/-- The step is the `Schedule` of `w`. -/
def schedules (w : ω) (a : Act δ ω) (s : State δ ω) : Bool :=
  match a with
  | .done d => s.done d = .schedule w true ∨ s.done d = .schedule w false
  | .await w' => w' = w ∧ s.await w' = .schedule
  | _ => false

/-- How often `w` has been scheduled. -/
def scheduled (w : ω) (h : History (State δ ω) (Act δ ω)) : Nat := h.countP fun e => schedules w e.1 e.2

/-- `Suspend` is over. -/
def resumed : FiberPc → Bool
  | .runnable | .leave | .returned => true
  | _ => false

/-- A late waiter that is alone finds the countdown at zero only when a `Done` has brought it there. -/
def finds (s : State δ ω) : Act δ ω → Prop
  | .await w => s.await w = .loadSuspended → s.suspended = 1 → s.zeroed = true ∨ 0 < s.countdown
  | _ => True

end model

/-! ### The invariant -/

section invariant

variable {δ ω : Type} [DecidableEq ω]

/-- `AwaitSuspend` has the fiber. -/
def waiting : AwaitPc → Bool
  | .off | .unlockQueued => false
  | _ => true

/-- The `Done` is going to look into the queue again. -/
def drains : DonePc ω → Bool
  | .lock | .readEmpty | .unlock false | .take | .readEmptyAfter _ | .schedule _ false => true
  | _ => false

/-- The `Done` has taken a fiber, and has not come to its store. -/
def took : DonePc ω → Bool
  | .readEmptyAfter _ | .store _ => true
  | _ => false

/-- The places where `w` is. -/
def tokens [Fintype δ] (s : State δ ω) (w : ω) : Nat :=
  (if waiting (s.await w) then 1 else 0) + s.queue.count w + Threads.count (fun pc => pc.holding = some w) s.done

/-- The `Done`s and the queue. -/
structure Drain (s : State δ ω) : Prop where
  fresh : s.zeroed = false → s.completed = false ∧ ∀ d, (s.done d).last = false
  finishing : s.zeroed = true → s.completed = true ∨ ∃ d, (s.done d).last = true
  put : (∃ w, s.await w = .put) → 0 < s.countdown ∨ ∃ d, s.done d = .lock
  queue : s.queue ≠ [] → 0 < s.countdown ∨ ∃ d, drains (s.done d) = true
  /-- Who has found the queue not empty either still can, or somebody else has taken the rest. -/
  empty : (∃ d, (s.done d).more = true) → s.queue ≠ [] ∨ s.completed = true ∨ ∃ d, took (s.done d) = true
  final : ∀ d f, s.done d = .schedule f true → s.completed = true

structure Inv [Fintype δ] (s : State δ ω) : Prop where
  lock : Lock.Guards s.mtx s.locks
  count : s.countdown = s.owed + Threads.count (· = DonePc.fetchSub) s.done
  drain : Drain s
  token : ∀ w, tokens s w = if s.fiber w = .suspended then 1 else 0
  off : ∀ w, s.fiber w = .idle ∨ s.fiber w = .enter → s.await w = .off

end invariant

/-! ### The `Done`s and the queue -/

section drain

variable {δ ω : Type} [DecidableEq δ] [DecidableEq ω] {s r : State δ ω} {d : δ} {pc : DonePc ω}
  {p : DonePc ω → Prop}

omit [DecidableEq ω] in
theorem exists_keep (h : ∃ d', p (s.done d')) (hkeep : p (s.done d) → p pc) : ∃ d', p (update s.done d pc d') := by
  obtain ⟨d', h⟩ := h
  rcases eq_or_ne d' d with rfl | hne
  · exact ⟨d', by rw [update_self]; exact hkeep h⟩
  · exact ⟨d', by rw [update_of_ne hne]; exact h⟩

omit [DecidableEq δ] [DecidableEq ω] in
theorem Drain.zeroed (h : Drain s) (hl : (s.done d).last = true) : s.zeroed = true := by
  by_contra hz
  rw [(h.fresh (Bool.eq_false_iff.2 hz)).2 d] at hl
  cases hl

omit [DecidableEq ω] in
/-- A step of a `Done` that has brought the countdown to zero. -/
theorem Drain.move (h : Drain s) (hdone : r.done = update s.done d pc) (hawait : r.await = s.await)
    (hz : r.zeroed = s.zeroed) (hc : r.countdown = s.countdown) (hl : (s.done d).last = true)
    (hcomp : s.completed = true → r.completed = true)
    (hfinish : pc.last = true ∨ r.completed = true ∨ ∃ d', d' ≠ d ∧ (s.done d').last = true)
    (hput : s.done d = .lock → ∀ w, s.await w ≠ .put)
    (hqueue : r.queue ≠ [] → s.queue ≠ [] ∧ (drains (s.done d) = true → drains pc = true))
    (hmore : pc.more = true → (s.done d).more = true ∨ r.queue ≠ [])
    (hrest : s.queue ≠ [] → r.queue ≠ [] ∨ took pc = true)
    (htook : took (s.done d) = true → took pc = true ∨ r.completed = true ∨ r.queue ≠ [])
    (hfinal : ∀ f, pc = .schedule f true → r.completed = true) : Drain r where
  fresh hf := by
    rw [hz, h.zeroed hl] at hf
    cases hf
  finishing _ := by
    rw [hdone]
    rcases hfinish with hp | hcp | ⟨d', hne, hp⟩
    · exact .inr ⟨d, by rw [update_self]; exact hp⟩
    · exact .inl hcp
    · exact .inr ⟨d', by rw [update_of_ne hne]; exact hp⟩
  put hw := by
    rw [hawait] at hw
    rw [hc, hdone]
    exact (h.put hw).imp_right fun he =>
      exists_keep (p := (· = .lock)) he fun hd => absurd hw fun ⟨w, hw⟩ => hput hd w hw
  queue hq := by
    obtain ⟨hq₀, hkeep⟩ := hqueue hq
    rw [hc, hdone]
    exact (h.queue hq₀).imp_right fun he => exists_keep (p := (drains · = true)) he hkeep
  empty := by
    rw [hdone]
    rintro ⟨d', hd'⟩
    have hs : (∃ d', (s.done d').more = true) ∨ r.queue ≠ [] := by
      rcases eq_or_ne d' d with rfl | hne
      · rw [update_self] at hd'
        exact (hmore hd').imp_left fun hm => ⟨d', hm⟩
      · rw [update_of_ne hne] at hd'
        exact .inl ⟨d', hd'⟩
    rcases hs with hs | hs
    · rcases h.empty hs with hq | hcp | ⟨d₁, h₁⟩
      · rcases hrest hq with hq | ht
        · exact .inl hq
        · exact .inr (.inr ⟨d, by rw [update_self]; exact ht⟩)
      · exact .inr (.inl (hcomp hcp))
      · rcases eq_or_ne d₁ d with rfl | hne
        · rcases htook h₁ with ht | hcp | hq
          · exact .inr (.inr ⟨d₁, by rw [update_self]; exact ht⟩)
          · exact .inr (.inl hcp)
          · exact .inl hq
        · exact .inr (.inr ⟨d₁, by rw [update_of_ne hne]; exact h₁⟩)
    · exact .inl hs
  final d' f hf := by
    rw [hdone] at hf
    rcases eq_or_ne d' d with rfl | hne
    · rw [update_self] at hf
      exact hfinal f hf
    · rw [update_of_ne hne] at hf
      exact hcomp (h.final d' f hf)

omit [DecidableEq δ] [DecidableEq ω] in
/-- A step of nobody in `Done`. -/
theorem Drain.frame (h : Drain s) (hdone : r.done = s.done) (hz : r.zeroed = s.zeroed)
    (hcomp : r.completed = s.completed) (hc : 0 < s.countdown → 0 < r.countdown)
    (hput : (∃ w, r.await w = .put) → (∃ w, s.await w = .put) ∨ 0 < s.countdown)
    (hqueue : r.queue ≠ [] → s.queue ≠ [] ∨ ∃ w, s.await w = .put)
    (hkeep : s.queue ≠ [] → r.queue ≠ []) : Drain r where
  fresh := by
    rw [hz, hcomp, hdone]
    exact h.fresh
  finishing := by
    rw [hz, hcomp, hdone]
    exact h.finishing
  put hw := by
    rw [hdone]
    rcases hput hw with hw | hpos
    · exact (h.put hw).imp_left hc
    · exact .inl (hc hpos)
  queue hq := by
    rw [hdone]
    rcases hqueue hq with hq | hw
    · exact (h.queue hq).imp_left hc
    · exact (h.put hw).imp hc fun ⟨d, hd⟩ => ⟨d, by rw [hd]; rfl⟩
  empty := by
    rw [hdone, hcomp]
    exact fun hm => (h.empty hm).imp_left hkeep
  final := by
    rw [hdone, hcomp]
    exact h.final

omit [DecidableEq ω] in
theorem last_of_drains (hd : drains pc = true) : pc.last = true := by
  cases pc <;> first | rfl | cases hd

omit [DecidableEq ω] in
theorem last_of_took (hd : took pc = true) : pc.last = true := by
  cases pc <;> first | rfl | cases hd

omit [DecidableEq ω] in
/-- A step of a `Done` that is not the last one. -/
theorem Drain.outside (h : Drain s) (hdone : r.done = update s.done d pc) (hawait : r.await = s.await)
    (hq : r.queue = s.queue) (hz : r.zeroed = s.zeroed) (hcomp : r.completed = s.completed)
    (hc : 0 < s.countdown → 0 < r.countdown) (hl : (s.done d).last = false) (hpc : pc.last = false) :
    Drain r := by
  have hno : ∀ {p : DonePc ω → Prop}, (∀ pc, p pc → pc.last = true) → p (s.done d) → p pc := by
    intro p hp hd
    have := hp _ hd
    rw [hl] at this
    cases this
  have hback : ∀ {p : DonePc ω → Prop}, (∀ pc, p pc → pc.last = true) → ∀ d', p (r.done d') → p (s.done d') := by
    intro p hp d' hd'
    rw [hdone] at hd'
    rcases eq_or_ne d' d with rfl | hne
    · rw [update_self] at hd'
      have := hp _ hd'
      rw [hpc] at this
      cases this
    · rwa [update_of_ne hne] at hd'
  have hlock : ∀ pc : DonePc ω, pc = .lock → pc.last = true := by
    rintro _ rfl
    rfl
  constructor
  · intro hf
    rw [hz] at hf
    obtain ⟨h1, h2⟩ := h.fresh hf
    refine ⟨hcomp.trans h1, fun d' => ?_⟩
    by_contra hlast
    have := hback (p := (·.last = true)) (fun _ => id) d' (by simpa using hlast)
    rw [h2 d'] at this
    cases this
  · intro hf
    rw [hz] at hf
    rw [hdone, hcomp]
    exact (h.finishing hf).imp_right fun he => exists_keep (p := (·.last = true)) he (hno fun _ => id)
  · intro hw
    rw [hawait] at hw
    rw [hdone]
    exact (h.put hw).imp hc fun he => exists_keep (p := (· = .lock)) he (hno hlock)
  · intro hne
    rw [hq] at hne
    rw [hdone]
    exact (h.queue hne).imp hc fun he =>
      exists_keep (p := (drains · = true)) he (hno fun _ => last_of_drains)
  · rintro ⟨d', hd'⟩
    rw [hq, hcomp, hdone]
    have hs := h.empty ⟨d', hback (p := (·.more = true)) (fun _ => last_of_more) d' hd'⟩
    exact hs.imp_right (Or.imp_right fun he => exists_keep (p := (took · = true)) he (hno fun _ => last_of_took))
  · intro d' f hf
    rw [hcomp]
    refine h.final d' f (hback (p := (· = .schedule f true)) ?_ d' hf)
    rintro _ rfl
    rfl

omit [DecidableEq ω] in
/-- The countdown comes to zero. -/
theorem Drain.zero (h : Drain s) (hdone : r.done = update s.done d .lock)
    (hq : r.queue = s.queue) (hz : r.zeroed = true) (hcomp : r.completed = s.completed)
    (hl : (s.done d).last = false) : Drain r := by
  have hd : r.done d = .lock := by rw [hdone, update_self]
  have hkeep : ∀ {p : DonePc ω → Prop}, (∀ pc, p pc → pc.last = true) → (∃ d', p (s.done d')) →
      ∃ d', p (r.done d') := by
    rintro p hp ⟨d', hd'⟩
    refine ⟨d', ?_⟩
    rw [hdone, update_of_ne]
    · exact hd'
    · rintro rfl
      have := hp _ hd'
      rw [hl] at this
      cases this
  constructor
  · intro hf
    rw [hz] at hf
    cases hf
  · exact fun _ => .inr ⟨d, by rw [hd]; rfl⟩
  · exact fun _ => .inr ⟨d, hd⟩
  · exact fun _ => .inr ⟨d, by rw [hd]; rfl⟩
  · rintro ⟨d', hd'⟩
    rw [hq, hcomp]
    have hs : (s.done d').more = true := by
      rw [hdone] at hd'
      rcases eq_or_ne d' d with rfl | hne
      · rw [update_self] at hd'
        cases hd'
      · rwa [update_of_ne hne] at hd'
    exact (h.empty ⟨d', hs⟩).imp_right (Or.imp_right (hkeep (p := (took · = true)) fun _ => last_of_took))
  · intro d' f hf
    rw [hcomp]
    rw [hdone] at hf
    rcases eq_or_ne d' d with rfl | hne
    · rw [update_self] at hf
      cases hf
    · rw [update_of_ne hne] at hf
      exact h.final d' f hf

end drain

/-! ### Where a fiber is -/

section token

variable {δ ω : Type} [Fintype δ] [DecidableEq δ] [DecidableEq ω] {s r : State δ ω} {d : δ} {pc : DonePc ω}
  {w f : ω}

theorem tokens_done (hdone : r.done = update s.done d pc) (hawait : r.await = s.await) (w : ω) :
    tokens r w + s.queue.count w + (if (s.done d).holding = some w then 1 else 0) =
      tokens s w + r.queue.count w + if pc.holding = some w then 1 else 0 := by
  have h := Threads.count_update_add (p := fun pc : DonePc ω => pc.holding = some w) (l := s.done) (i := d) (x := pc)
  unfold tokens
  rw [hdone, hawait]
  omega

omit [DecidableEq δ] in
theorem tokens_await (hdone : r.done = s.done) (w : ω) :
    tokens r w + s.queue.count w + (if waiting (s.await w) then 1 else 0) =
      tokens s w + r.queue.count w + if waiting (r.await w) then 1 else 0 := by
  unfold tokens
  rw [hdone]
  omega

/-- A step of a `Done` that has brought the countdown to zero. -/
theorem Inv.moveDone (i : Inv s) (hdone : r.done = update s.done d pc) (hawait : r.await = s.await)
    (hc : r.countdown = s.countdown) (ho : r.owed = s.owed) (hl : (s.done d).last = true) (hpc : pc ≠ .fetchSub)
    (hlock : Lock.Guards r.mtx r.locks) (hdrain : Drain r)
    (hfiber : ∀ w, r.fiber w = .idle ∨ r.fiber w = .enter → s.fiber w = .idle ∨ s.fiber w = .enter)
    (htok : ∀ w, r.queue.count w + (if pc.holding = some w then 1 else 0) +
        (if s.fiber w = .suspended then 1 else 0) =
      s.queue.count w + (if (s.done d).holding = some w then 1 else 0) +
        if r.fiber w = .suspended then 1 else 0) : Inv r where
  lock := hlock
  count := by
    have hne : s.done d ≠ .fetchSub := by
      intro hd
      rw [hd] at hl
      cases hl
    have hsame := Threads.count_update_same (p := (· = DonePc.fetchSub)) (l := s.done) (i := d) (x := pc)
      (iff_of_false hpc hne)
    rw [hc, ho, hdone, hsame]
    exact i.count
  drain := hdrain
  token w := by
    have h1 := tokens_done hdone hawait w
    have h2 := i.token w
    have h3 := htok w
    omega
  off w hw := by
    rw [hawait]
    exact i.off w (hfiber w hw)

omit [DecidableEq δ] in
/-- Whoever `Done` has taken is suspended, and nowhere else. -/
theorem Inv.held (i : Inv s) (hd : (s.done d).holding = some f) : s.fiber f = .suspended := by
  have h1 := i.token f
  have h2 : 0 < Threads.count (fun pc : DonePc ω => pc.holding = some f) s.done :=
    Threads.count_pos (p := fun pc : DonePc ω => pc.holding = some f) hd
  by_contra hf
  rw [if_neg hf] at h1
  unfold tokens at h1
  omega

omit [DecidableEq δ] in
theorem Inv.suspended (i : Inv s) (hw : waiting (s.await w) = true) : s.fiber w = .suspended := by
  have h1 := i.token w
  by_contra hf
  rw [if_neg hf] at h1
  unfold tokens at h1
  rw [if_pos hw] at h1
  omega

omit [DecidableEq δ] in
/-- `mtx_` is free: nobody is about to put a fiber into the queue. -/
theorem Inv.not_put (i : Inv s) (hm : s.mtx = false) (w : ω) : s.await w ≠ .put := by
  intro hw
  refine i.lock.free hm (.inr w) ?_
  change (s.await w).locked = true
  rw [hw]
  rfl

theorem inv_doneStep {s' : State δ ω} (i : Inv s) (hs : step s (.done d) = some s') : Inv s' := by
  simp only [step] at hs
  split at hs
  · -- `Take` has found nothing
    next he =>
    obtain ⟨hd, hq⟩ := he
    cases hs
    refine i.moveDone (d := d) rfl rfl rfl rfl (by rw [hd]; rfl) nofun (guards_setDone i.lock nofun) ?_
      (fun _ h => h) fun w => by rw [hd]; rfl
    refine i.drain.move (d := d) rfl rfl rfl rfl (by rw [hd]; rfl) id ?_ (by rw [hd]; nofun) ?_ nofun
      (fun h => absurd hq h) (by rw [hd]; nofun) nofun
    · rcases i.drain.empty ⟨d, by rw [hd]; rfl⟩ with h | h | ⟨d', h⟩
      · exact absurd hq h
      · exact .inr (.inl h)
      · refine .inr (.inr ⟨d', ?_, last_of_took h⟩)
        rintro rfl
        rw [hd] at h
        cases h
    · exact fun h => absurd hq h
  next htake =>
  unfold doneStep at hs
  split at hs <;> rename_i hd
  · cases hs
  · cases hs
  · -- `fetchSub`
    cases hs
    have hpos : 0 < s.countdown := by
      have h := Threads.count_pos (p := (· = DonePc.fetchSub)) hd
      rw [i.count]
      omega
    have hsub : (if s.countdown = 1 then .lock else .returned : DonePc ω) ≠ .fetchSub := by
      split <;> nofun
    refine ⟨?_, ?_, ?_, ?_, ?_⟩
    · refine guards_setDone (s := s.fetchSub) i.lock fun h => ?_
      split at h <;> cases h
    · have h := Threads.count_update_leave (p := (· = DonePc.fetchSub)) hd hsub
      have hcount := i.count
      change s.countdown - 1 = s.owed + Threads.count (· = DonePc.fetchSub) (update s.done d _)
      omega
    · by_cases h1 : s.countdown = 1
      · rw [if_pos h1]
        refine i.drain.zero (d := d) rfl rfl ?_ rfl (by rw [hd]; rfl)
        change (s.zeroed || s.countdown == 1) = true
        rw [h1, beq_self_eq_true, Bool.or_true]
      · rw [if_neg h1]
        refine i.drain.outside (d := d) rfl rfl rfl ?_ rfl (fun _ => ?_) (by rw [hd]; rfl) rfl
        · change (s.zeroed || s.countdown == 1) = s.zeroed
          rw [beq_false_of_ne h1, Bool.or_false]
        · change 0 < s.countdown - 1
          omega
    · intro w
      have h := tokens_done (r := s.fetchSub.setDone d (if s.countdown = 1 then .lock else .returned))
        (s := s) rfl rfl w
      have hhold : (if s.countdown = 1 then .lock else .returned : DonePc ω).holding = none := by
        split <;> rfl
      rw [hhold, hd] at h
      have hw := i.token w
      change tokens _ w = if s.fiber w = .suspended then 1 else 0
      rw [← hw]
      exact Nat.add_right_cancel h
    · exact i.off
  · -- `lock`
    split at hs
    · cases hs
    · next hm =>
      cases hs
      have hm : s.mtx = false := by simpa using hm
      refine i.moveDone (d := d) rfl rfl rfl rfl (by rw [hd]; rfl) nofun (guards_lockDone i.lock hm _) ?_
        (fun _ h => h) fun w => by rw [hd]; rfl
      exact i.drain.move (d := d) rfl rfl rfl rfl (by rw [hd]; rfl) id (.inl rfl) (fun _ => i.not_put hm)
        (fun h => ⟨h, fun _ => rfl⟩) nofun .inl (by rw [hd]; nofun) nofun
  · -- `readEmpty`
    cases hs
    refine i.moveDone (d := d) rfl rfl rfl rfl (by rw [hd]; rfl) nofun
      (guards_setDone i.lock fun _ => by rw [hd]; rfl) ?_
      (fun _ h => h) fun w => by rw [hd]; rfl
    refine i.drain.move (d := d) rfl rfl rfl rfl (by rw [hd]; rfl) id (.inl rfl) (by rw [hd]; nofun) ?_ ?_
      .inl (by rw [hd]; nofun) nofun
    · intro h
      have hq : s.queue.isEmpty = false := List.isEmpty_eq_false_iff.2 h
      exact ⟨h, fun _ => by rw [hq]; rfl⟩
    · intro h
      refine .inr fun hq => ?_
      have hq : s.queue = [] := hq
      rw [hq] at h
      cases h
  · -- `unlock`
    next isEmpty =>
    cases hs
    refine i.moveDone (d := d) rfl rfl rfl rfl (by rw [hd]; rfl) (by split <;> nofun)
      (guards_unlockDone i.lock (by rw [hd]; rfl) (by split <;> rfl)) ?_ (fun _ h => h) fun w => ?_
    · refine i.drain.move (d := d) rfl rfl rfl rfl (by rw [hd]; rfl) id (.inl ?_) (by rw [hd]; nofun) ?_ ?_
        .inl (by rw [hd]; nofun) (fun f h => by split at h <;> cases h)
      · split <;> rfl
      · intro h
        refine ⟨h, fun hdr => ?_⟩
        rw [hd] at hdr
        cases isEmpty
        · rfl
        · cases hdr
      · intro h
        rw [hd]
        cases isEmpty
        · exact .inl rfl
        · cases h
    · rw [hd]
      cases isEmpty <;> rfl
  · -- `storeEmpty`
    cases hs
    refine i.moveDone (d := d) rfl rfl rfl rfl (by rw [hd]; rfl) nofun
      (guards_setDone (s := s.complete) i.lock nofun) ?_
      (fun _ h => h) fun w => by rw [hd]; rfl
    exact i.drain.move (d := d) rfl rfl rfl rfl (by rw [hd]; rfl) (fun _ => rfl) (.inr (.inl rfl)) (by rw [hd]; nofun)
      (fun h => ⟨h, by rw [hd]; nofun⟩) nofun .inl (by rw [hd]; nofun) nofun
  · -- `take`
    split at hs
    · cases hs
    · next f q hq =>
      cases hs
      refine i.moveDone (d := d) rfl rfl rfl rfl (by rw [hd]; rfl) nofun
        (guards_setDone (s := s.setQueue q) i.lock nofun) ?_
        (fun _ h => h) fun w => ?_
      · refine i.drain.move (d := d) rfl rfl rfl rfl (by rw [hd]; rfl) id (.inl rfl) (by rw [hd]; nofun) ?_ nofun
          (fun _ => .inr rfl) (by rw [hd]; nofun) nofun
        exact fun _ => ⟨by rw [hq]; nofun, fun _ => rfl⟩
      · rw [hd, hq]
        change q.count w + (if some f = some w then 1 else 0) + _ = (f :: q).count w + 0 + _
        rw [List.count_cons]
        simp only [beq_iff_eq, Option.some.injEq]
        rfl
  · -- `readEmptyAfter`
    next f =>
    cases hs
    have hhold : (if s.queue.isEmpty then .store f else .schedule f false : DonePc ω).holding = some f := by
      split <;> rfl
    refine i.moveDone (d := d) rfl rfl rfl rfl (by rw [hd]; rfl) (by split <;> nofun)
      (guards_setDone i.lock fun h => by split at h <;> cases h) ?_ (fun _ h => h) fun w => ?_
    · refine i.drain.move (d := d) rfl rfl rfl rfl (by rw [hd]; rfl) id (.inl ?_) (by rw [hd]; nofun) ?_ ?_
        .inl ?_ ?_
      · split <;> rfl
      · refine fun h => ⟨h, fun _ => ?_⟩
        have hq : s.queue.isEmpty = false := List.isEmpty_eq_false_iff.2 h
        rw [hq]
        rfl
      · intro h
        refine .inr fun hq => ?_
        have hq : s.queue = [] := hq
        rw [hq] at h
        cases h
      · intro _
        by_cases hq : s.queue = []
        · refine .inl ?_
          rw [hq]
          rfl
        · exact .inr (.inr hq)
      · intro f' h
        split at h <;> cases h
    · rw [hhold, hd]
      rfl
  · -- `store`
    next f =>
    cases hs
    refine i.moveDone (d := d) rfl rfl rfl rfl (by rw [hd]; rfl) nofun
      (guards_setDone (s := s.complete) i.lock nofun) ?_
      (fun _ h => h) fun w => by rw [hd]; rfl
    exact i.drain.move (d := d) rfl rfl rfl rfl (by rw [hd]; rfl) (fun _ => rfl) (.inr (.inl rfl)) (by rw [hd]; nofun)
      (fun h => ⟨h, by rw [hd]; nofun⟩) nofun .inl (fun _ => .inr (.inl rfl)) fun _ _ => rfl
  · -- `schedule`
    next f isEmpty =>
    cases hs
    have hf := i.held (d := d) (f := f) (by rw [hd]; rfl)
    refine i.moveDone (d := d) rfl rfl rfl rfl (by rw [hd]; rfl) (by split <;> nofun)
      (guards_setDone (s := s.resume f) i.lock fun h => by split at h <;> cases h) ?_ (fun w h => ?_) fun w => ?_
    · refine i.drain.move (d := d) rfl rfl rfl rfl (by rw [hd]; rfl) id ?_ (by rw [hd]; nofun) ?_ ?_
        .inl (by rw [hd]; nofun) (fun f h => by split at h <;> cases h)
      · cases isEmpty with
        | true => exact .inr (.inl (i.drain.final d f hd))
        | false => exact .inl rfl
      · intro h
        refine ⟨h, fun hdr => ?_⟩
        rw [hd] at hdr
        cases isEmpty
        · rfl
        · cases hdr
      · intro h
        rw [hd]
        cases isEmpty
        · exact .inl rfl
        · cases h
    · change update s.fiber f .runnable w = _ ∨ update s.fiber f .runnable w = _ at h
      rcases eq_or_ne w f with rfl | hne
      · rw [update_self] at h
        rcases h with h | h <;> cases h
      · rwa [update_of_ne hne] at h
    · have hhold : (if isEmpty then .returned else .take : DonePc ω).holding = none := by
        split <;> rfl
      rw [hhold, hd]
      change _ = s.queue.count w + (if some f = some w then 1 else 0) +
        if update s.fiber f .runnable w = .suspended then 1 else 0
      rcases eq_or_ne w f with rfl | hne
      · rw [update_self, hf, if_pos rfl, if_pos rfl]
        rfl
      · rw [update_of_ne hne, if_neg fun he => hne (Option.some.inj he).symm]
        rfl

/-! ### `AwaitSuspend` and the fiber -/

omit [DecidableEq δ] in
/-- A step of `AwaitSuspend`. -/
theorem Inv.moveAwait {apc : AwaitPc} (i : Inv s) (hdone : r.done = s.done) (hawait : r.await = update s.await w apc)
    (hc : r.countdown = s.countdown) (ho : r.owed = s.owed) (hz : r.zeroed = s.zeroed)
    (hcomp : r.completed = s.completed) (hon : s.await w ≠ .off) (hlock : Lock.Guards r.mtx r.locks)
    (hput : apc = .put → 0 < s.countdown) (hqueue : r.queue ≠ [] → s.queue ≠ [] ∨ s.await w = .put)
    (hkeep : s.queue ≠ [] → r.queue ≠ [])
    (hfiber : ∀ w', r.fiber w' = .idle ∨ r.fiber w' = .enter → s.fiber w' = .idle ∨ s.fiber w' = .enter)
    (htok : ∀ w', r.queue.count w' + (if waiting (update s.await w apc w') then 1 else 0) +
        (if s.fiber w' = .suspended then 1 else 0) =
      s.queue.count w' + (if waiting (s.await w') then 1 else 0) +
        if r.fiber w' = .suspended then 1 else 0) : Inv r where
  lock := hlock
  count := by
    rw [hc, ho, hdone]
    exact i.count
  drain := by
    refine i.drain.frame hdone hz hcomp (fun h => hc ▸ h) ?_ (fun h => (hqueue h).imp_right fun hw => ⟨w, hw⟩) hkeep
    rintro ⟨w', hw'⟩
    rw [hawait] at hw'
    rcases eq_or_ne w' w with rfl | hne
    · rw [update_self] at hw'
      exact .inr (hput hw')
    · rw [update_of_ne hne] at hw'
      exact .inl ⟨w', hw'⟩
  token w' := by
    have h1 := tokens_await hdone w'
    have h2 := i.token w'
    have h3 := htok w'
    rw [hawait] at h1
    omega
  off w' hw' := by
    have h := i.off w' (hfiber w' hw')
    rw [hawait, update_of_ne]
    · exact h
    · rintro rfl
      exact hon h

omit [DecidableEq δ] in
/-- `AwaitSuspend` moves on, and the fiber stays where it is. -/
theorem Inv.passAwait {apc : AwaitPc} (i : Inv s) (hdone : r.done = s.done) (hawait : r.await = update s.await w apc)
    (hc : r.countdown = s.countdown) (ho : r.owed = s.owed) (hz : r.zeroed = s.zeroed)
    (hcomp : r.completed = s.completed) (hq : r.queue = s.queue) (hf : r.fiber = s.fiber) (hon : s.await w ≠ .off)
    (hlock : Lock.Guards r.mtx r.locks) (hput : apc = .put → 0 < s.countdown)
    (hwait : waiting apc = waiting (s.await w)) : Inv r := by
  refine i.moveAwait hdone hawait hc ho hz hcomp hon hlock hput (fun h => .inl (hq ▸ h)) (fun h => hq ▸ h)
    (fun w' h => by rwa [hf] at h) fun w' => ?_
  rw [hq, hf]
  rcases eq_or_ne w' w with rfl | hne
  · rw [update_self, hwait]
  · rw [update_of_ne hne]

omit [DecidableEq δ] in
theorem inv_awaitStep {s' : State δ ω} (i : Inv s) (hs : awaitStep s w = some s') : Inv s' := by
  unfold awaitStep at hs
  split at hs <;> rename_i hw
  · cases hs
  · -- `lock`
    split at hs
    · cases hs
    · next hm =>
      cases hs
      exact i.passAwait (w := w) rfl rfl rfl rfl rfl rfl rfl rfl (by rw [hw]; nofun)
        (guards_lockAwait i.lock (by simpa using hm) _) nofun (by rw [hw]; rfl)
  · -- `loadCountdown`
    cases hs
    refine i.passAwait (w := w) rfl rfl rfl rfl rfl rfl rfl rfl (by rw [hw]; nofun)
      (guards_setAwait i.lock fun _ => by rw [hw]; rfl) ?_ ?_
    · intro h
      split at h
      · next h0 => exact Nat.pos_of_ne_zero h0
      · cases h
    · rw [hw]
      split <;> rfl
  · -- `put`
    cases hs
    refine i.moveAwait (w := w) rfl rfl rfl rfl rfl rfl (by rw [hw]; nofun) ?_ nofun (fun _ => .inr hw) ?_
      (fun _ h => h) fun w' => ?_
    · exact guards_setAwait (s := s.setQueue (s.queue ++ [w])) i.lock fun _ => by
        change (s.await w).locked = true
        rw [hw]
        rfl
    · intro _ he
      exact List.append_ne_nil_of_right_ne_nil _ (List.cons_ne_nil _ _) he
    · change (s.queue ++ [w]).count w' + _ + _ = _ + _ + if s.fiber w' = .suspended then 1 else 0
      rw [List.count_append, List.count_singleton]
      rcases eq_or_ne w' w with rfl | hne
      · rw [update_self, hw, beq_self_eq_true]
        rfl
      · rw [update_of_ne hne, beq_false_of_ne (Ne.symm hne)]
        rfl
  · -- `unlockQueued`
    cases hs
    exact i.passAwait (w := w) rfl rfl rfl rfl rfl rfl rfl rfl (by rw [hw]; nofun)
      (guards_unlockAwait i.lock (by rw [hw]; rfl) rfl) nofun (by rw [hw]; rfl)
  · -- `unlockLate`
    cases hs
    exact i.passAwait (w := w) rfl rfl rfl rfl rfl rfl rfl rfl (by rw [hw]; nofun)
      (guards_unlockAwait i.lock (by rw [hw]; rfl) rfl) nofun (by rw [hw]; rfl)
  · -- `loadSuspended`
    cases hs
    refine i.passAwait (w := w) rfl rfl rfl rfl rfl rfl rfl rfl (by rw [hw]; nofun)
      (guards_setAwait i.lock fun h => by split at h <;> cases h) (fun h => by split at h <;> cases h) ?_
    rw [hw]
    split <;> rfl
  · -- `spin`
    split at hs
    · cases hs
      exact i.passAwait (w := w) rfl rfl rfl rfl rfl rfl rfl rfl (by rw [hw]; nofun)
        (guards_setAwait i.lock nofun) nofun (by rw [hw]; rfl)
    · cases hs
  · -- `schedule`
    cases hs
    have hf := i.suspended (w := w) (by rw [hw]; rfl)
    refine i.moveAwait (w := w) rfl rfl rfl rfl rfl rfl (by rw [hw]; nofun)
      (guards_setAwait (s := s.resume w) i.lock nofun) nofun .inl id (fun w' h => ?_) fun w' => ?_
    · change update s.fiber w .runnable w' = _ ∨ update s.fiber w .runnable w' = _ at h
      rcases eq_or_ne w' w with rfl | hne
      · rw [update_self] at h
        rcases h with h | h <;> cases h
      · rwa [update_of_ne hne] at h
    · change s.queue.count w' + _ + _ = _ + _ + if update s.fiber w .runnable w' = .suspended then 1 else 0
      rcases eq_or_ne w' w with rfl | hne
      · rw [update_self, update_self, hw, hf]
        rfl
      · rw [update_of_ne hne, update_of_ne hne]

omit [DecidableEq δ] in
/-- A fiber that is not suspended moves. -/
theorem Inv.moveFiber {pc : FiberPc} {x : AwaitPc} (i : Inv s) (hdone : r.done = s.done)
    (hawait : r.await = update s.await w x) (hfib : r.fiber = update s.fiber w pc)
    (hc : r.countdown = s.countdown) (ho : r.owed = s.owed) (hz : r.zeroed = s.zeroed)
    (hcomp : r.completed = s.completed) (hq : r.queue = s.queue) (hlock : Lock.Guards r.mtx r.locks)
    (hw : s.fiber w ≠ .suspended) (hput : x ≠ .put ∨ x = s.await w)
    (hoff : pc = .idle ∨ pc = .enter → x = .off)
    (htok : (waiting x = true ↔ pc = .suspended)) : Inv r where
  lock := hlock
  count := by
    rw [hc, ho, hdone]
    exact i.count
  drain := by
    refine i.drain.frame hdone hz hcomp (fun h => hc ▸ h) ?_ (fun h => .inl (hq ▸ h)) fun h => hq ▸ h
    rintro ⟨w', hw'⟩
    rw [hawait] at hw'
    rcases eq_or_ne w' w with rfl | hne
    · rw [update_self] at hw'
      exact .inl ⟨w', hput.resolve_left (not_not_intro hw') ▸ hw'⟩
    · rw [update_of_ne hne] at hw'
      exact .inl ⟨w', hw'⟩
  token w' := by
    have h1 := tokens_await hdone w'
    have h2 := i.token w'
    rw [hawait, hq] at h1
    rw [hfib]
    rcases eq_or_ne w' w with rfl | hne
    · rw [update_self] at h1 ⊢
      rw [if_neg hw] at h2
      have h3 : waiting (s.await w') ≠ true := fun h => hw (i.suspended h)
      rw [if_neg h3] at h1
      rw [← if_congr htok rfl rfl]
      omega
    · rw [update_of_ne hne] at h1 ⊢
      omega
  off w' hw' := by
    rw [hfib] at hw'
    rw [hawait]
    rcases eq_or_ne w' w with rfl | hne
    · rw [update_self] at hw' ⊢
      exact hoff hw'
    · rw [update_of_ne hne] at hw' ⊢
      exact i.off w' hw'

theorem inv_step {s' : State δ ω} {a : Act δ ω} (i : Inv s) (hu : usage s a) (hs : step s a = some s') : Inv s' := by
  cases a with
  | add count =>
    cases hs
    have hcount := i.count
    refine ⟨i.lock, ?_, ?_, i.token, i.off⟩
    · change s.countdown + count = s.owed + count + Threads.count (· = DonePc.fetchSub) s.done
      omega
    · exact i.drain.frame rfl rfl rfl (fun h => Nat.add_pos_left h count) .inl .inl id
  | callDone d =>
    simp only [step, WaitGroup.step] at hs
    split at hs
    · next hd =>
      cases hs
      have hcount := i.count
      have hpos : 0 < s.owed := hu
      have hent := Threads.count_update_enter (p := (· = DonePc.fetchSub)) (l := s.done) (i := d) (x := .fetchSub)
        (by rw [hd]; rintro ⟨⟩) rfl
      refine ⟨guards_setDone i.lock (by rintro ⟨⟩), ?_, ?_, fun w => ?_, i.off⟩
      · change s.countdown = s.owed - 1 + Threads.count (· = DonePc.fetchSub) (update s.done d .fetchSub)
        omega
      · exact i.drain.outside (d := d) rfl rfl rfl rfl rfl id (by rw [hd]; rfl) rfl
      · have h := tokens_done (r := { s.setDone d .fetchSub with owed := s.owed - 1 }) (s := s) rfl rfl w
        rw [hd] at h
        exact (Nat.add_right_cancel (Nat.add_right_cancel h)).trans (i.token w)
    · cases hs
  | done d => exact inv_doneStep i hs
  | callWait w =>
    simp only [step, WaitGroup.step] at hs
    split at hs
    · next hw =>
      cases hs
      have hoff := i.off w (.inl hw)
      refine i.moveFiber (w := w) (x := .off) rfl ?_ rfl rfl rfl rfl rfl rfl i.lock (by rw [hw]; rintro ⟨⟩) (.inl (by rintro ⟨⟩))
        (fun _ => rfl) (iff_of_false (by rintro ⟨⟩) (by rintro ⟨⟩))
      rw [← hoff, update_eq_self]
      rfl
    · cases hs
  | fiber w =>
    have hs : fiberStep s w = some s' := hs
    unfold fiberStep at hs
    split at hs
    · cases hs
    · cases hs
    · cases hs
    · next hw =>
      cases hs
      have hoff := i.off w (.inr hw)
      refine i.moveFiber (w := w) (x := .lock) rfl rfl rfl rfl rfl rfl rfl rfl ?_ (by rw [hw]; rintro ⟨⟩) (.inl (by rintro ⟨⟩))
        (fun h => by rcases h with h | h <;> cases h) (iff_of_true rfl rfl)
      exact guards_setAwait (s := (s.setSuspended _).setFiber w .suspended) i.lock (by rintro ⟨⟩)
    · next hw =>
      cases hs
      have hno : ¬ waiting (s.await w) = true := fun h => by
        have := i.suspended h
        rw [hw] at this
        cases this
      refine i.moveFiber (w := w) (x := s.await w) rfl ?_ rfl rfl rfl rfl rfl rfl i.lock (by rw [hw]; rintro ⟨⟩)
        (.inr rfl) (fun h => by rcases h with h | h <;> cases h) (iff_of_false hno (by rintro ⟨⟩))
      rw [update_eq_self]
      rfl
    · next hw =>
      cases hs
      have hno : ¬ waiting (s.await w) = true := fun h => by
        have := i.suspended h
        rw [hw] at this
        cases this
      refine i.moveFiber (w := w) (x := s.await w) rfl ?_ rfl rfl rfl rfl rfl rfl i.lock (by rw [hw]; rintro ⟨⟩)
        (.inr rfl) (fun h => by rcases h with h | h <;> cases h) (iff_of_false hno (by rintro ⟨⟩))
      rw [update_eq_self]
      rfl
  | await w => exact inv_awaitStep i hs

omit [DecidableEq δ] in
theorem inv_init : Inv (init : State δ ω) where
  lock := WaitGroup.inv_init.lock
  count := by
    have h := Threads.count_eq_zero (p := (· = DonePc.fetchSub)) (l := (init : State δ ω).done)
    change 0 = 0 + _
    rw [h.2 fun _ => nofun]
  drain := by
    refine ⟨fun _ => ⟨rfl, fun _ => rfl⟩, nofun, ?_, fun h => absurd rfl h, ?_, nofun⟩
    · rintro ⟨w, hw⟩
      cases hw
    · rintro ⟨d, hd⟩
      cases hd
  token w := by
    have h := Threads.count_eq_zero (p := fun pc : DonePc ω => pc.holding = some w) (l := (init : State δ ω).done)
    unfold tokens
    rw [h.2 fun _ => nofun]
    rfl
  off _ _ := rfl

/-! ### Nobody is left -/

omit [Fintype δ] in
/-- The countdown does not come to zero by itself. -/
theorem reached_step {s' : State δ ω} {a : Act δ ω} (hs : step s a = some s')
    (h : s.zeroed = true ∨ 0 < s.countdown) : s'.zeroed = true ∨ 0 < s'.countdown := by
  have hsub : ∀ d, (s.fetchSub.setDone d (if s.countdown = 1 then .lock else .returned)).zeroed = true ∨
      0 < (s.fetchSub.setDone d (if s.countdown = 1 then .lock else .returned)).countdown := by
    intro d
    change (s.zeroed || s.countdown == 1) = true ∨ 0 < s.countdown - 1
    rcases h with hz | hpos
    · exact .inl (by rw [hz, Bool.true_or])
    · by_cases h1 : s.countdown = 1
      · exact .inl (by rw [h1, beq_self_eq_true, Bool.or_true])
      · exact .inr (by omega)
  cases a with
  | add count =>
    cases hs
    exact h.imp_right fun hp => Nat.add_pos_left hp count
  | callDone d =>
    simp only [step, WaitGroup.step] at hs
    split at hs
    · cases hs; exact h
    · cases hs
  | done d =>
    simp only [step] at hs
    split at hs
    · cases hs; exact h
    · unfold doneStep at hs
      split at hs
      · cases hs
      · cases hs
      · cases hs; exact hsub d
      all_goals first | (cases hs; exact h) | (split at hs <;> cases hs; exact h)
  | callWait w =>
    simp only [step, WaitGroup.step] at hs
    split at hs
    · cases hs; exact h
    · cases hs
  | fiber w =>
    have hs : fiberStep s w = some s' := hs
    unfold fiberStep at hs
    split at hs <;> cases hs <;> exact h
  | await w =>
    have hs : awaitStep s w = some s' := hs
    unfold awaitStep at hs
    split at hs
    all_goals first | (cases hs; exact h) | (split at hs <;> cases hs <;> exact h) | cases hs

/-- Whoever spins will be let go, or the countdown has not been at zero yet. -/
def Spin (s : State δ ω) : Prop := ∀ w, s.await w = .spin → s.zeroed = true ∨ 0 < s.countdown

omit [Fintype δ] [DecidableEq δ] in
/-- What a step of `AwaitSuspend` does to the lock, and who comes to the spin. -/
theorem await_of_awaitStep {s' : State δ ω} (hs : awaitStep s w = some s') :
    ∃ pc, s'.await = update s.await w pc ∧ s'.done = s.done ∧
      (s'.mtx = true → pc.locked = true ∨ s.mtx = true ∧ (s.await w).locked = false) ∧
      (pc = .spin → s.await w = .loadSuspended ∧ s.suspended = 1) := by
  unfold awaitStep at hs
  split at hs <;> rename_i hp
  · cases hs
  · split at hs
    · cases hs
    · cases hs; exact ⟨_, rfl, rfl, fun _ => .inl rfl, nofun⟩
  · cases hs
    exact ⟨_, rfl, rfl, fun _ => .inl (by split <;> rfl), fun h => by split at h <;> cases h⟩
  · cases hs; exact ⟨_, rfl, rfl, fun _ => .inl rfl, nofun⟩
  · cases hs; exact ⟨_, rfl, rfl, nofun, nofun⟩
  · cases hs; exact ⟨_, rfl, rfl, nofun, nofun⟩
  · cases hs
    refine ⟨_, rfl, rfl, fun hm => .inr ⟨hm, by rw [hp]; rfl⟩, fun h => ?_⟩
    split at h
    · next h1 => exact ⟨hp, h1⟩
    · cases h
  · split at hs
    · cases hs; exact ⟨_, rfl, rfl, fun hm => .inr ⟨hm, by rw [hp]; rfl⟩, nofun⟩
    · cases hs
  · cases hs; exact ⟨_, rfl, rfl, fun hm => .inr ⟨hm, by rw [hp]; rfl⟩, nofun⟩

omit [Fintype δ] in
/-- What a step of `Done` does to the lock. -/
theorem done_of_doneStep {s' : State δ ω} (hs : step s (.done d) = some s') :
    ∃ pc, s'.done = update s.done d pc ∧ s'.await = s.await ∧
      (s'.mtx = true → pc.locked = true ∨ s.mtx = true ∧ (s.done d).locked = false) := by
  simp only [step] at hs
  split at hs
  · next he => cases hs; exact ⟨_, rfl, rfl, fun hm => .inr ⟨hm, by rw [he.1]; rfl⟩⟩
  · unfold doneStep at hs
    split at hs <;> rename_i hp
    · cases hs
    · cases hs
    · cases hs; exact ⟨_, rfl, rfl, fun hm => .inr ⟨hm, by rw [hp]; rfl⟩⟩
    · split at hs
      · cases hs
      · cases hs; exact ⟨_, rfl, rfl, fun _ => .inl rfl⟩
    · cases hs; exact ⟨_, rfl, rfl, fun _ => .inl rfl⟩
    · cases hs; exact ⟨_, rfl, rfl, nofun⟩
    · cases hs; exact ⟨_, rfl, rfl, fun hm => .inr ⟨hm, by rw [hp]; rfl⟩⟩
    · split at hs
      · cases hs
      · cases hs; exact ⟨_, rfl, rfl, fun hm => .inr ⟨hm, by rw [hp]; rfl⟩⟩
    · cases hs; exact ⟨_, rfl, rfl, fun hm => .inr ⟨hm, by rw [hp]; rfl⟩⟩
    · cases hs; exact ⟨_, rfl, rfl, fun hm => .inr ⟨hm, by rw [hp]; rfl⟩⟩
    · cases hs; exact ⟨_, rfl, rfl, fun hm => .inr ⟨hm, by rw [hp]; rfl⟩⟩

/-- `mtx_` is locked by somebody. -/
def Taken (s : State δ ω) : Prop := s.mtx = true → ∃ x, s.locks x

omit [Fintype δ] [DecidableEq δ] [DecidableEq ω] in
/-- A step of `Done` or of `AwaitSuspend`, as `x`. -/
theorem Taken.of_step {s' : State δ ω} (h : Taken s) {x : δ ⊕ ω} (hself : s'.mtx = true → s'.locks x ∨
      s.mtx = true ∧ ¬ s.locks x) (hother : ∀ y, y ≠ x → s.locks y → s'.locks y) : Taken s' := by
  intro hm
  rcases hself hm with hx | ⟨hm, hx⟩
  · exact ⟨x, hx⟩
  · obtain ⟨y, hy⟩ := h hm
    exact ⟨y, hother y (fun he => hx (he ▸ hy)) hy⟩

omit [Fintype δ] in
theorem spin_of_step {s' : State δ ω} {a : Act δ ω} (hs : step s a = some s') (hw : s'.await w = .spin) :
    s.await w = .spin ∨ a = .await w ∧ s.await w = .loadSuspended ∧ s.suspended = 1 := by
  cases a with
  | add count => cases hs; exact .inl hw
  | callDone d =>
    simp only [step, WaitGroup.step] at hs
    split at hs
    · cases hs; exact .inl hw
    · cases hs
  | done d =>
    obtain ⟨pc, -, hawait, -⟩ := done_of_doneStep hs
    exact .inl (hawait ▸ hw)
  | callWait w' =>
    simp only [step, WaitGroup.step] at hs
    split at hs
    · cases hs; exact .inl hw
    · cases hs
  | fiber w' =>
    have hs : fiberStep s w' = some s' := hs
    unfold fiberStep at hs
    split at hs
    · cases hs
    · cases hs
    · cases hs
    · cases hs
      rcases setAwait_cases (p := (· = .spin)) hw with ⟨-, h⟩ | ⟨-, h⟩
      · cases h
      · exact .inl h
    · cases hs; exact .inl hw
    · cases hs; exact .inl hw
  | await w' =>
    obtain ⟨pc, hpc, -, -, hspin⟩ := await_of_awaitStep hs
    rw [hpc] at hw
    rcases eq_or_ne w w' with rfl | hne
    · rw [update_self] at hw
      exact .inr ⟨rfl, hspin hw⟩
    · rw [update_of_ne hne] at hw
      exact .inl hw

omit [Fintype δ] in
theorem Spin.step {s' : State δ ω} {a : Act δ ω} (h : Spin s) (hf : finds s a) (hs : Stranding.step s a = some s') :
    Spin s' := by
  intro w hw
  refine reached_step hs ?_
  rcases spin_of_step hs hw with hw | ⟨rfl, hp, h1⟩
  · exact h w hw
  · exact hf hp h1

theorem Taken.step {s' : State δ ω} {a : Act δ ω} (h : Taken s) (i : Inv s) (hs : Stranding.step s a = some s') :
    Taken s' := by
  cases a with
  | add count => cases hs; exact h
  | callDone d =>
    simp only [Stranding.step, WaitGroup.step] at hs
    split at hs
    · next hd =>
      cases hs
      have hno : ¬ s.locks (.inl d) := by
        change ¬ (s.done d).locked = true
        rw [hd]
        rintro ⟨⟩
      refine h.of_step (x := .inl d) (fun hm => .inr ⟨hm, hno⟩) fun y hy hl => ?_
      cases y with
      | inl d' =>
        change (update s.done d .fetchSub d').locked = true
        rw [update_of_ne fun he => hy (congrArg _ he)]
        exact hl
      | inr w => exact hl
    · cases hs
  | done d =>
    obtain ⟨pc, hdone, hawait, hm⟩ := done_of_doneStep hs
    refine h.of_step (x := .inl d) (fun hm' => (hm hm').imp (fun hl => ?_) (And.imp_right fun hl => ?_))
      fun y hy hl => ?_
    · change (s'.done d).locked = true
      rw [hdone, update_self]
      exact hl
    · change ¬ (s.done d).locked = true
      rw [hl]
      rintro ⟨⟩
    · cases y with
      | inl d' =>
        change (s'.done d').locked = true
        rw [hdone, update_of_ne fun he => hy (congrArg _ he)]
        exact hl
      | inr w =>
        change (s'.await w).locked = true
        rw [hawait]
        exact hl
  | callWait w =>
    simp only [Stranding.step, WaitGroup.step] at hs
    split at hs
    · cases hs; exact h
    · cases hs
  | fiber w =>
    have hs : fiberStep s w = some s' := hs
    unfold fiberStep at hs
    split at hs
    · cases hs
    · cases hs
    · cases hs
    · next hw =>
      cases hs
      have hoff := i.off w (.inr hw)
      have hno : ¬ s.locks (.inr w) := by
        change ¬ (s.await w).locked = true
        rw [hoff]
        rintro ⟨⟩
      refine h.of_step (x := .inr w) (fun hm => .inr ⟨hm, hno⟩) fun y hy hl => ?_
      cases y with
      | inl d => exact hl
      | inr w' =>
        change (update s.await w .lock w').locked = true
        rw [update_of_ne fun he => hy (congrArg _ he)]
        exact hl
    · cases hs; exact h
    · cases hs; exact h
  | await w =>
    obtain ⟨pc, hawait, hdone, hm, -⟩ := await_of_awaitStep hs
    refine h.of_step (x := .inr w) (fun hm' => (hm hm').imp (fun hl => ?_) (And.imp_right fun hl => ?_))
      fun y hy hl => ?_
    · change (s'.await w).locked = true
      rw [hawait, update_self]
      exact hl
    · change ¬ (s.await w).locked = true
      rw [hl]
      rintro ⟨⟩
    · cases y with
      | inl d =>
        change (s'.done d).locked = true
        rw [hdone]
        exact hl
      | inr w' =>
        change (s'.await w').locked = true
        rw [hawait, update_of_ne fun he => hy (congrArg _ he)]
        exact hl

omit [DecidableEq δ] in
/-- Nobody is left: who spins will be told so, and who is in the queue will be taken. -/
theorem Inv.not_stranded (i : Inv s) (hspin : Spin s) : ¬ stranded s := by
  rintro ⟨h0, hno, w, hw⟩
  have hlast : ∀ d, (s.done d).last = false := fun d => by rcases hno d with h | h <;> rw [h] <;> rfl
  rcases hw with hw | ⟨hw, hc⟩
  · rcases i.drain.queue (List.ne_nil_of_mem hw) with h | ⟨d, h⟩
    · omega
    · have := last_of_drains h
      rw [hlast d] at this
      cases this
  · rcases hspin w hw with hz | h
    · rcases i.drain.finishing hz with h | ⟨d, h⟩
      · rw [hc] at h
        cases h
      · rw [hlast d] at h
        cases h
    · omega

omit [DecidableEq δ] in
/-- With no `Done` left, an `AwaitSuspend` that is not at the spin can take a step, or another one can. -/
theorem Inv.off_of_settled (i : Inv s) (hspin : Spin s) (ht : Taken s) (hs : settled s) (w : ω) :
    s.await w = .off := by
  obtain ⟨h0, hno, hstuck⟩ := hs
  have hfree : s.mtx = false := by
    by_contra hm
    obtain ⟨x, hx⟩ := ht (by simpa using hm)
    cases x with
    | inl d =>
      change (s.done d).locked = true at hx
      rcases hno d with h | h <;> rw [h] at hx <;> cases hx
    | inr w' =>
      change (s.await w').locked = true at hx
      have hst := hstuck w'
      unfold awaitStep at hst
      split at hst <;> rename_i hp <;> first | (rw [hp] at hx; cases hx; done) | cases hst
  have hst := hstuck w
  unfold awaitStep at hst
  split at hst <;> rename_i hp
  · exact hp
  · rw [hfree] at hst
    cases hst
  · cases hst
  · cases hst
  · cases hst
  · cases hst
  · cases hst
  · split at hst
    · cases hst
    · next hc =>
      exact absurd ⟨h0, hno, w, .inr ⟨hp, by simpa using hc⟩⟩ (i.not_stranded hspin)
  · cases hst

/-! ### How often a fiber is scheduled -/

omit [Fintype δ] [DecidableEq δ] in
theorem resume_resumed (hf : s.fiber f = .suspended) (w : ω) :
    (if resumed (update s.fiber f .runnable w) then 1 else 0) =
      (if resumed (s.fiber w) then 1 else 0) + if f = w then 1 else 0 := by
  rcases eq_or_ne w f with rfl | hne
  · rw [update_self, hf, if_pos rfl]
    rfl
  · rw [update_of_ne hne, if_neg (Ne.symm hne), add_zero]

/-- A fiber is resumed by the step that schedules it, and by no other. -/
theorem resumed_step {s' : State δ ω} {a : Act δ ω} (i : Inv s) (hs : step s a = some s') (w : ω) :
    (if resumed (s'.fiber w) then 1 else 0) =
      (if resumed (s.fiber w) then 1 else 0) + if schedules w a s then 1 else 0 := by
  cases a with
  | add count => cases hs; rfl
  | callDone d =>
    simp only [step, WaitGroup.step] at hs
    split at hs
    · cases hs; rfl
    · cases hs
  | callWait w' =>
    simp only [step, WaitGroup.step] at hs
    split at hs
    · next hw =>
      cases hs
      change (if resumed (update s.fiber w' .enter w) then 1 else 0) = _ + 0
      rcases eq_or_ne w w' with rfl | hne
      · rw [update_self, hw]
        rfl
      · rw [update_of_ne hne, add_zero]
    · cases hs
  | done d =>
    simp only [step] at hs
    split at hs
    · next he =>
      cases hs
      have hno : schedules w (.done d) s = false := by simp [schedules, he.1]
      rw [hno]
      rfl
    · unfold doneStep at hs
      split at hs <;> rename_i hp
      case h_11 f b =>
        cases hs
        have hf := i.held (d := d) (f := f) (by rw [hp]; rfl)
        have hsch : schedules w (.done d) s = decide (f = w) := by
          cases b <;> simp [schedules, hp]
        rw [hsch]
        simp only [decide_eq_true_eq]
        exact resume_resumed hf w
      all_goals
        have hno : schedules w (.done d) s = false := by simp [schedules, hp]
        rw [hno]
        first | (cases hs; rfl) | (split at hs <;> cases hs; rfl) | cases hs
  | fiber w' =>
    have hs : fiberStep s w' = some s' := hs
    unfold fiberStep at hs
    split at hs <;> rename_i hp
    · cases hs
    · cases hs
    · cases hs
    all_goals
      cases hs
      change (if resumed (update s.fiber w' _ w) then 1 else 0) = _ + 0
      rcases eq_or_ne w w' with rfl | hne
      · rw [update_self, hp]
        rfl
      · rw [update_of_ne hne, add_zero]
  | await w' =>
    have hs : awaitStep s w' = some s' := hs
    unfold awaitStep at hs
    split at hs <;> rename_i hp
    case h_9 =>
      cases hs
      have hf := i.suspended (w := w') (by rw [hp]; rfl)
      have hsch : schedules w (.await w' : Act δ ω) s = decide (w' = w) := by simp [schedules, hp]
      rw [hsch]
      simp only [decide_eq_true_eq]
      exact resume_resumed hf w
    all_goals
      have hno : schedules w (.await w' : Act δ ω) s = false := by simp [schedules, hp]
      rw [hno]
      first | (cases hs; rfl) | (split at hs <;> cases hs; rfl) | cases hs

/-- What holds in a run in which no waiter that is alone finds the countdown at zero before a `Done` has brought it
there. -/
structure Books (h : History (State δ ω) (Act δ ω)) (s : State δ ω) : Prop where
  inv : Inv s
  spin : Spin s
  taken : Taken s
  once : ∀ w, scheduled w h = if resumed (s.fiber w) then 1 else 0

theorem books {h : History (State δ ω) (Act δ ω)}
    (r : Run (system δ ω) (fun s a => usage s a ∧ finds s a) h s) : Books h s := by
  refine r.invariant (I := Books) ?_ ?_
  · rintro s rfl
    exact ⟨inv_init, fun _ => nofun, nofun, fun _ => rfl⟩
  · intro h s a s' b hok hs
    have i := inv_step b.inv hok.1 hs
    refine ⟨i, b.spin.step hok.2 hs, b.taken.step b.inv hs, fun w => ?_⟩
    rw [resumed_step b.inv hs w, ← b.once w]
    unfold scheduled
    rw [List.countP_cons]

/-! ### Main theorem -/

/-- In every such run nobody is left in the group, no fiber is scheduled twice, and when nothing is left to do every
fiber that waited has been scheduled. The condition is needed at each step. -/
theorem waits_released {h : History (State δ ω) (Act δ ω)} {s : State δ ω}
    (r : Run (system δ ω) (fun s a => usage s a ∧ finds s a) h s) :
    ¬ stranded s ∧ (∀ w, scheduled w h = if resumed (s.fiber w) then 1 else 0) ∧
      (settled s → ∀ w, s.fiber w ≠ .idle → s.fiber w ≠ .enter → scheduled w h = 1) ∧
      ∀ a s', usage s a → (system δ ω).step s a = some s' → (¬ stranded s' ↔ finds s a) := by
  have b := books r
  refine ⟨b.inv.not_stranded b.spin, b.once, fun hset w hidle henter => ?_, fun a s' hu hs => ⟨?_, fun hf => ?_⟩⟩
  · have hoff := b.inv.off_of_settled b.spin b.taken hset w
    have htok := b.inv.token w
    obtain ⟨h0, hno, -⟩ := hset
    have hqueue : s.queue.count w = 0 := List.count_eq_zero.2 fun hw =>
      b.inv.not_stranded b.spin ⟨h0, hno, w, .inl hw⟩
    have hhold : Threads.count (fun pc : DonePc ω => pc.holding = some w) s.done = 0 :=
      Threads.count_eq_zero.2 fun d => by rcases hno d with h | h <;> rw [h] <;> nofun
    have hsus : s.fiber w ≠ .suspended := by
      intro hsus
      rw [if_pos hsus, tokens, hoff, hqueue, hhold] at htok
      cases htok
    rw [b.once w]
    revert hidle henter hsus
    cases s.fiber w <;> simp [resumed]
  · -- whoever comes to the spin against the condition is stranded there
    intro hno
    by_contra hf
    cases a with
    | await w =>
      obtain ⟨hp, hf⟩ := Classical.not_imp.1 hf
      obtain ⟨h1, hf⟩ := Classical.not_imp.1 hf
      obtain ⟨hz, hpos⟩ := not_or.1 hf
      have h0 : s.countdown = 0 := Nat.eq_zero_of_not_pos hpos
      obtain ⟨hcomp, hlast⟩ := b.inv.drain.fresh (Bool.eq_false_iff.2 hz)
      have hcount := b.inv.count
      have hsub := Threads.count_eq_zero (p := (· = DonePc.fetchSub)) (l := s.done)
      have hs : awaitStep s w = some s' := hs
      simp only [awaitStep, hp, h1, if_true] at hs
      cases hs
      refine hno ⟨h0, fun d => ?_, w, .inr ⟨update_self .., hcomp⟩⟩
      have hd := hlast d
      have hne := hsub.1 (by omega) d
      change s.done d = .idle ∨ s.done d = .returned
      revert hd hne
      cases s.done d <;> simp [DonePc.last]
    | _ => exact hf trivial
  · have b' := books (r.step ⟨hu, hf⟩ hs)
    exact b'.inv.not_stranded b'.spin

end token

/-! ### Two runs -/

/-- A test for `usage` and `finds`. -/
def check (s : State (Fin 2) (Fin 2)) (a : Act (Fin 2) (Fin 2)) : Bool :=
  match a with
  | .add count => decide (s.countdown + count < 2 ^ 32)
  | .callDone _ => decide (0 < s.owed)
  | .await w => decide (s.await w = .loadSuspended → s.zeroed = true)
  | _ => true

theorem usage_of_check (s : State (Fin 2) (Fin 2)) (a : Act (Fin 2) (Fin 2)) (h : check s a = true) :
    usage s a ∧ finds s a := by
  cases a with
  | add count =>
    have hlt : s.countdown + count < 2 ^ 32 := of_decide_eq_true h
    exact ⟨hlt, trivial⟩
  | callDone d =>
    have hlt : 0 < s.owed := of_decide_eq_true h
    exact ⟨hlt, trivial⟩
  | await w =>
    have hz : s.await w = .loadSuspended → s.zeroed = true := of_decide_eq_true h
    exact ⟨trivial, fun hp _ => .inl (hz hp)⟩
  | _ => exact ⟨trivial, trivial⟩

/-- Fiber 0 comes when the `Done` has decremented the countdown, and spins until it is told that the queue is empty.
In the next round fiber 1 goes into the queue. -/
def lateAndQueued : List (Act (Fin 2) (Fin 2)) :=
  [.add 1, .callDone 0, .done 0, .callWait 0, .fiber 0, .await 0, .await 0, .await 0, .await 0,
    .done 0, .done 0, .done 0, .done 0, .await 0, .await 0, .fiber 0, .fiber 0,
    .add 1, .callWait 1, .fiber 1, .await 1, .await 1, .await 1, .await 1, .callDone 1, .done 1, .done 1, .done 1,
    .done 1, .done 1, .done 1, .done 1, .done 1, .fiber 1, .fiber 1]

theorem waits_released_late : ∃ h, ∃ s : State (Fin 2) (Fin 2), Run (system (Fin 2) (Fin 2)) usage h s ∧
    (∀ w, s.fiber w = .returned) ∧ ¬ stranded s ∧ ∀ w, scheduled w h = 1 := by
  obtain ⟨s, ⟨h, r⟩, hp⟩ := Reach.of_exec (system (Fin 2) (Fin 2)) lateAndQueued
    (fun s => ∀ w, s.fiber w = .returned) usage_of_check (s := init) rfl (by decide)
  have hw := of_decide_eq_true hp
  obtain ⟨hno, honce, -⟩ := waits_released r
  refine ⟨h, s, r.mono fun _ _ hok => hok.1, hw, hno, fun w => ?_⟩
  rw [honce w, hw w]
  rfl

/-- `Wait`, and nothing else: the countdown is zero, there was no `Done`, and the fiber waits for one. -/
theorem waits_for_no_done :
    ¬ ∀ s : State (Fin 1) (Fin 1), Reach (system (Fin 1) (Fin 1)) usage s → ¬ stranded s := by
  intro hall
  obtain ⟨s, hr, hp⟩ := Reach.of_exec (system (Fin 1) (Fin 1))
    [.callWait 0, .fiber 0, .await 0, .await 0, .await 0, .await 0]
    (fun s => s.countdown = 0 ∧ s.done 0 = .idle ∧ s.await 0 = .spin ∧ s.completed = false)
    (fun s a (h : (a matches .callWait _ | .fiber _ | .await _) = true) =>
      show usage s a by cases a <;> first | exact trivial | cases h) (s := init) rfl (by decide)
  obtain ⟨h0, hd, hw, hc⟩ := of_decide_eq_true hp
  exact hall s hr ⟨h0, fun d => .inl (by rw [Subsingleton.elim d 0]; exact hd), 0, .inr ⟨hw, hc⟩⟩

end Fibers.WaitGroup.Stranding
