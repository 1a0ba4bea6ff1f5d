import ConcurrencyCourse.Fibers.HandOff
import Mathlib.Data.Fintype.EquivFin

/-!
# `fibers::Mutex`: mutual exclusion, order, and no lost fiber

`Correct` is what the users of the mutex get, read off the invariant of `Fibers.HandOff`. The histories `parks`
and `schedules` are tied to the queue by `Told`: what was linked is `values`, what was scheduled is how it begins.

`size_` is 64 bits wide, and so is a `Fiber*`: there are not enough fibers to make it wrap.
-/

namespace Fibers.Mutex

open MSQueue Transition Function

/-- In a state that a run with history `h` led to. -/
structure Correct {ι : Type} [DecidableEq ι] (h : History (State ι) (Act ι)) (s : State ι) : Prop where
  /-- One fiber at most is between the return of `Lock` and its call of `Unlock`. -/
  exclusive : ∀ f g, s.holds f = true → s.holds g = true → f = g
  /-- And one at most owns the lock, if it is not free. -/
  owner : ∀ f g, s.owns f → s.owns g → f = g
  locked : s.st ≠ .none ↔ ∃ f, s.owns f
  waiters : s.mtx = false → (s.st = .lockedWithWaiters ↔ s.waiting ≠ [])
  parked : ∀ f, s.pc f = .parked → s.st ≠ .none
  /-- `Take` never returns `nullopt`. -/
  value : ∀ f, s.pc f ≠ .take (.done none) ∧ s.pc f ≠ .thrown
  scheduled : ∀ f u, s.pc f = .schedule u → s.owns u ∧ s.pc u = .parked
  /-- The fibers are scheduled in the order in which they parked; the others wait, each once, but for one at
  most that an `Unlock` is going to schedule. -/
  order : ∃ l, parks h = schedules h ++ l ++ s.waiting ∧ l.length ≤ 1 ∧ (l ++ s.waiting).Nodup ∧
    ∀ u, u ∈ l ↔ ∃ f, s.handing f = some u
  /-- A parked fiber is one of those, and somebody owns the lock who has to let go of it first. -/
  kept : ∀ u, s.pc u = .parked → (u ∈ s.waiting ∨ ∃ f, s.handing f = some u) ∧ ∃ f, s.owns f
  /-- Every other call goes on, but for a wait for `mtx_`, and then the one who has it goes on. -/
  goesOn : ∀ f, s.pc f ≠ .idle → s.pc f ≠ .parked →
    (step s (.step f false none)).isSome = true ∨
      (s.pc f = .lockMtx ∨ s.pc f = .lockTake) ∧
        ∃ g, (s.pc g).locked = true ∧ (step s (.step g false none)).isSome = true

section correct

variable {ι : Type} [Fintype ι] {s : State ι} {f u : ι} {n : Nat}

/-! ### Who owns the lock -/

omit [Fintype ι] in
theorem Pc.handing_le (pc : Pc ι) : pc.handing ≤ 1 := by
  cases pc <;> first | exact Nat.zero_le _ | exact Nat.le_refl _ | exact Bool.toNat_le _

/-- The fiber in the hands of `f` is the next one of `values`. -/
theorem Inv.handing_eq (hi : Inv n s) (hh : (s.pc f).handing = 1) :
    s.handing f = s.q.values[n]? := by
  have htaken := hi.taken_eq (f := f) (Pc.token_of_handing (by omega)) hh
  have hgot : ∀ v, (s.pc f).got = some v → some v = s.q.values[n]? := by
    intro v hv
    have := hi.flow.got f v hv
    rw [htaken, Nat.add_sub_cancel] at this
    exact this.symm
  have hok := hi.queue.ok f
  unfold State.handing
  cases hpc : s.pc f <;> rw [hpc] at hh hgot hok <;> try cases hh
  case take pc =>
    cases pc with
    | readNext3 | moveValue =>
      simp only [htaken, Nat.add_sub_cancel]
    | retire k v => exact hgot v rfl
    | subSize v => exact hgot v rfl
    | done r =>
      cases r with
      | none => exact absurd rfl hok.2
      | some v => exact hgot v rfl
    | _ => cases hh
  case readEmpty v => exact hgot v rfl
  case storeSt v e => exact hgot v rfl
  case unlockTaken v => exact hgot v rfl
  case schedule v => exact hgot v rfl

omit [Fintype ι] in
theorem handing_none (hh : (s.pc f).handing = 0) : s.handing f = none := by
  unfold State.handing
  cases hpc : s.pc f <;> rw [hpc] at hh <;> try first | rfl | cases hh
  case take pc => cases pc <;> first | rfl | cases hh

/-- The fiber in the hands of `f`, if there is one. -/
theorem Inv.handing_cases (hi : Inv n s) (f : ι) :
    ((s.pc f).handing = 0 ∧ s.handing f = none) ∨
      ((s.pc f).handing = 1 ∧ s.q.taken = n + 1 ∧ ∃ u, s.handing f = some u ∧ s.q.values[n]? = some u) := by
  rcases Nat.eq_zero_or_pos (s.pc f).handing with h | h
  · exact .inl ⟨h, handing_none h⟩
  · have h1 : (s.pc f).handing = 1 := Nat.le_antisymm (Pc.handing_le _) h
    have htaken := hi.taken_eq (f := f) (Pc.token_of_handing (by omega)) h1
    have hlt := hi.queue.q.taken_lt
    have hlen := hi.queue.q.len
    have hget : s.q.values[n]? = some s.q.values[n] := List.getElem?_eq_getElem (by omega)
    exact .inr ⟨h1, htaken, _, (hi.handing_eq h1).trans hget, hget⟩

/-- Whoever has somebody in its hands has the token. -/
theorem Inv.tok_of_handing (hi : Inv n s) (hf : s.handing f = some u) : s.tok f := by
  rcases hi.handing_cases f with ⟨-, h⟩ | ⟨h, -⟩
  · rw [h] at hf
    cases hf
  · exact .inr (Pc.token_of_handing (by omega))

theorem Inv.owner (hi : Inv n s) {g : ι} (hf : s.owns f) (hg : s.owns g) : f = g := by
  have hone : ∀ {x y v}, s.tok x → s.handing x = none → s.handing y = some v → False := by
    intro x y v hx hn hy
    rw [hi.tokens.unique hx (hi.tok_of_handing hy)] at hn
    rw [hn] at hy
    cases hy
  rcases hf with ⟨hf, hfn⟩ | ⟨x, hx⟩
  · rcases hg with ⟨hg, -⟩ | ⟨y, hy⟩
    · exact hi.tokens.unique hf hg
    · exact absurd hy (hone hf hfn)
  · rcases hg with ⟨hg, hgn⟩ | ⟨y, hy⟩
    · exact absurd hx (hone hg hgn)
    · rw [hi.tokens.unique (hi.tok_of_handing hx) (hi.tok_of_handing hy)] at hx
      exact Option.some.inj (hx.symm.trans hy)

theorem Inv.locked_iff (hi : Inv n s) : s.st ≠ .none ↔ ∃ f, s.owns f := by
  constructor
  · intro h
    obtain ⟨f, hf⟩ := hi.tokens.owned.one h
    rcases hi.handing_cases f with ⟨-, hn⟩ | ⟨-, -, u, hu, -⟩
    · exact ⟨f, .inl ⟨(hf f).2 rfl, hn⟩⟩
    · exact ⟨u, .inr ⟨f, hu⟩⟩
  · rintro ⟨f, ⟨hf, -⟩ | ⟨g, hg⟩⟩
    · exact hi.tokens.locked hf
    · exact hi.tokens.locked (hi.tok_of_handing hg)

/-! ### The parked fibers -/

/-- The one in somebody's hands, if there is one. -/
def State.inHands (n : Nat) (s : State ι) : List ι := (s.q.values.drop n).take (s.q.taken - n)

omit [Fintype ι] in
theorem drop_eq (hn : n ≤ s.q.taken) : s.q.values.drop n = s.inHands n ++ s.waiting := by
  have h : s.waiting = (s.q.values.drop n).drop (s.q.taken - n) := by
    rw [List.drop_drop, show n + (s.q.taken - n) = s.q.taken by omega]
    rfl
  rw [State.inHands, h, List.take_append_drop]

theorem Inv.n_le_taken (hi : Inv n s) : n ≤ s.q.taken := by
  have := hi.flow.taken
  omega

theorem Inv.sum_handing_le (hi : Inv n s) : ∑ f, (s.pc f).handing ≤ 1 := by
  by_contra h
  obtain ⟨f, -, hf⟩ := Finset.exists_ne_zero_of_sum_ne_zero (s := Finset.univ)
    (f := fun f => (s.pc f).handing) (by omega)
  rw [hi.tokens.sum_handing (.inr (Pc.token_of_handing hf))] at h
  exact h (Pc.handing_le _)

theorem Inv.mem_inHands (hi : Inv n s) (u : ι) : u ∈ s.inHands n ↔ ∃ f, s.handing f = some u := by
  have htaken := hi.flow.taken
  constructor
  · intro hu
    have hne : ∑ f, (s.pc f).handing ≠ 0 := by
      intro h0
      rw [State.inHands, show s.q.taken - n = 0 by omega, List.take_zero] at hu
      cases hu
    obtain ⟨f, -, hf⟩ := Finset.exists_ne_zero_of_sum_ne_zero hne
    rcases hi.handing_cases f with ⟨h, -⟩ | ⟨-, ht, v, hv, hget⟩
    · exact absurd h hf
    · refine ⟨f, ?_⟩
      obtain ⟨hlt, hv'⟩ := List.getElem?_eq_some_iff.1 hget
      rw [State.inHands, show s.q.taken - n = 1 by omega, List.drop_eq_getElem_cons hlt, hv',
        List.take_succ_cons, List.take_zero, List.mem_singleton] at hu
      rw [hv, hu]
  · rintro ⟨f, hf⟩
    rcases hi.handing_cases f with ⟨-, h⟩ | ⟨-, ht, v, hv, hget⟩
    · rw [h] at hf
      cases hf
    · obtain rfl := Option.some.inj (hf.symm.trans hv)
      obtain ⟨hlt, hv'⟩ := List.getElem?_eq_some_iff.1 hget
      rw [State.inHands, show s.q.taken - n = 1 by omega, List.drop_eq_getElem_cons hlt, hv',
        List.take_succ_cons]
      exact List.mem_cons_self

/-- A parked fiber waits or is in somebody's hands; a lock that somebody waits for is not free. -/
theorem Inv.parked_kept (hi : Inv n s) (hu : s.pc u = .parked) :
    (u ∈ s.waiting ∨ ∃ f, s.handing f = some u) ∧ s.st ≠ .none := by
  have hmem : u ∈ s.q.values.drop n := (hi.flow.mem u).2 (by rw [hu]; rfl)
  rw [drop_eq hi.n_le_taken, List.mem_append, hi.mem_inHands] at hmem
  refine ⟨hmem.symm, fun hst => ?_⟩
  have hfree := hi.tokens.owned.free hst
  rcases hmem with ⟨f, hf⟩ | hmem
  · exact hfree f (hi.tok_of_handing hf)
  · have hslow : s.st = .lockedWithWaiters := by
      refine (hi.waiters.iff fun g => ?_).2 (List.ne_nil_of_mem hmem)
      -- somebody in between would have seen `LockedWithWaiters`
      by_contra hb
      have hslow := hi.tokens.slow g (Pc.slow_of_between (by simpa using hb))
      rw [hst] at hslow
      cases hslow
    rw [hst] at hslow
    cases hslow

/-- While nobody has `mtx_`. -/
theorem Inv.waiters_iff (hi : Inv n s) (hm : s.mtx = false) :
    s.st = .lockedWithWaiters ↔ s.waiting ≠ [] := by
  refine hi.waiters.iff fun g => ?_
  by_contra hb
  exact hi.lock.free hm g (Pc.locked_of_between (by simpa using hb))

/-! ### Everybody goes on -/

/-- Only `mtx_` is waited for. -/
theorem Inv.enabled [DecidableEq ι] (hi : Inv n s) (hidle : s.pc f ≠ .idle) (hpark : s.pc f ≠ .parked)
    (hmtx : s.pc f = .lockMtx ∨ s.pc f = .lockTake → s.mtx = false) :
    (step s (.step f false none)).isSome = true := by
  have hok := hi.queue.ok f
  unfold step
  unfold fiberStep
  cases hpc : s.pc f <;> rw [hpc] at hidle hpark hmtx hok <;> simp only [hpc]
  case idle => exact absurd rfl hidle
  case parked => exact absurd rfl hpark
  case thrown => exact absurd hok id
  case casNone => split <;> rfl
  case lockMtx => rw [hmtx (.inl rfl)]; rfl
  case loadSt => split <;> rfl
  case casWaiters => split <;> rfl
  case put pc =>
    cases pc with
    | done => rfl
    | _ => rw [Option.isSome_map]; exact putStep_isSome hi.queue.q nofun
  case casFree => split <;> rfl
  case lockTake => rw [hmtx (.inr rfl)]; rfl
  case take pc =>
    cases pc with
    | done r => cases r <;> rfl
    | _ => rw [Option.isSome_map]; exact takeStep_isSome hi.queue.q hok.1 rfl
  all_goals rfl

theorem Inv.goesOn [DecidableEq ι] (hi : Inv n s) (hidle : s.pc f ≠ .idle) (hpark : s.pc f ≠ .parked) :
    (step s (.step f false none)).isSome = true ∨
      (s.pc f = .lockMtx ∨ s.pc f = .lockTake) ∧
        ∃ g, (s.pc g).locked = true ∧ (step s (.step g false none)).isSome = true := by
  by_cases hw : (s.pc f = .lockMtx ∨ s.pc f = .lockTake) ∧ s.mtx = true
  · obtain ⟨g, hg⟩ := hi.lock.holder hw.2
    refine .inr ⟨hw.1, g, hg, hi.enabled ?_ ?_ ?_⟩
    · intro h
      rw [h] at hg
      cases hg
    · intro h
      rw [h] at hg
      cases hg
    · rintro (h | h) <;> rw [h] at hg <;> cases hg
  · refine .inl (hi.enabled hidle hpark fun h => ?_)
    by_contra hm
    exact hw ⟨h, by simpa using hm⟩

end correct

/-! ### The histories -/

section histories

variable {ι : Type} [DecidableEq ι] [Fintype ι] {s s' : State ι} {n : Nat} {h : History (State ι) (Act ι)}

/-- `parks` grows as `values` does. -/
theorem Inv.parks_step (hi : Inv n s) {f : ι} {sp : Bool} {o : Ptr} (hs : fiberStep s f sp o = some s') :
    ∃ l, parks ((.step f sp o, s) :: h) = parks h ++ l ∧ s'.q.values = s.q.values ++ l := by
  have hsame : parks ((.step f sp o, s) :: h) = parks h → s'.q.values = s.q.values →
      ∃ l, parks ((.step f sp o, s) :: h) = parks h ++ l ∧ s'.q.values = s.q.values ++ l := fun h1 h2 =>
    ⟨[], by rw [h1, List.append_nil], by rw [h2, List.append_nil]⟩
  have hok := hi.queue.ok f
  unfold fiberStep at hs
  cases hpc : s.pc f <;> simp only [hpc, reduceCtorEq] at hs <;> rw [hpc] at hok
  case casNone => split at hs <;> obtain rfl := Option.some.inj hs <;> exact hsame (by rw [parks, hpc]) rfl
  case lockMtx =>
    split at hs
    · cases hs
    · obtain rfl := Option.some.inj hs
      exact hsame (by rw [parks, hpc]) rfl
  case loadSt => split at hs <;> obtain rfl := Option.some.inj hs <;> exact hsame (by rw [parks, hpc]) rfl
  case casWaiters => split at hs <;> obtain rfl := Option.some.inj hs <;> exact hsame (by rw [parks, hpc]) rfl
  case put pc =>
    by_cases hd : pc = .done
    · subst hd
      obtain rfl := Option.some.inj hs
      exact hsame (by rw [parks, hpc]) rfl
    · have hs : (putStep s.q sp o pc).map (fun r => (s.setQ r.1).setPc f (.put r.2)) = some s' := by
        cases pc <;> first | exact hs | exact absurd rfl hd
      obtain ⟨⟨q', pc'⟩, hx, rfl⟩ := Option.map_eq_some_iff.1 hs
      have he := putStep_effect hi.queue.q hok.1 hx
      cases he with
      | move mem priv phase =>
        refine hsame ?_ rfl
        simp only [parks, hpc]
        split
        · next k t heq =>
          obtain rfl := Pc.put.inj heq
          refine if_neg fun hc => ?_
          simp only [putStep, if_pos hc, Option.some.injEq, Prod.mk.injEq] at hx
          rw [← hx.2] at priv
          cases priv
        · rfl
      | @link k t mem last new =>
        have hval := hok.2 k rfl
        refine ⟨[f], ?_, ?_⟩
        · simp only [parks, hpc]
          refine if_pos ⟨?_, last⟩
          cases sp with
          | false => rfl
          | true =>
            simp only [putStep, reduceCtorEq, false_and, if_false, Option.some.injEq, Prod.mk.injEq] at hx
            exact absurd hx.2 (by rintro ⟨⟩)
        · change (s.q.link t k).values = _
          rw [Queue.link, hval]
          rfl
      | bump => exact hsame (by simp only [parks, hpc]) rfl
  case casFree => split at hs <;> obtain rfl := Option.some.inj hs <;> exact hsame (by rw [parks, hpc]) rfl
  case lockTake =>
    split at hs
    · cases hs
    · obtain rfl := Option.some.inj hs
      exact hsame (by rw [parks, hpc]) rfl
  case take pc =>
    cases pc with
    | done r => cases r <;> obtain rfl := Option.some.inj hs <;> exact hsame (by rw [parks, hpc]) rfl
    | _ =>
      obtain ⟨⟨q', pc'⟩, hx, rfl⟩ := Option.map_eq_some_iff.1 hs
      exact hsame (by rw [parks, hpc]) (takeEffect_values (takeStep_effect hi.queue.q hok.1 hx).1)
  all_goals
    obtain rfl := Option.some.inj hs
    exact hsame (by rw [parks, hpc]) rfl

/-- The history so far. -/
structure Told (h : History (State ι) (Act ι)) (s : State ι) : Prop where
  inv : Inv (schedules h).length s
  linked : parks h = s.q.values
  served : schedules h = s.q.values.take (schedules h).length

omit [DecidableEq ι] in
theorem told_init : Told [] (init : State ι) where
  inv :=
    { lock := ⟨⟨fun _ => nofun, fun _ _ => nofun⟩, nofun⟩
      queue := ⟨.empty, fun _ => trivial⟩
      tokens :=
        { owned := ⟨fun _ f => (nofun : ¬ (init : State ι).tok f), fun h => absurd rfl h⟩
          apart := fun _ => nofun
          slow := fun _ => nofun }
      waiters := ⟨fun _ => ⟨nofun, fun h => absurd rfl h⟩, nofun⟩
      flow :=
        { taken := by simp [init, Queue.empty, schedules, Pc.handing]
          added := by simp [init, Queue.empty, Pc.uncounted]
          removed := by simp [init, Queue.empty, Pc.unsized]
          got := fun _ _ => nofun
          nodup := List.nodup_nil
          mem := fun _ => ⟨nofun, nofun⟩
          handed := nofun } }
  linked := rfl
  served := rfl

theorem Told.step (hi : Told h s) (hfew : Fintype.card ι < 2 ^ 64) {a : Act ι} (hs : step s a = some s') :
    Told ((a, s) :: h) s' := by
  cases a with
  | lock f =>
    simp only [Fibers.Mutex.step] at hs
    split at hs
    · next hf =>
      obtain rfl := Option.some.inj hs
      exact ⟨hi.inv.stay hf rfl rfl rfl rfl (Locks.keep hi.inv.lock hf rfl rfl rfl)
        ⟨rfl, rfl, rfl, rfl, rfl, rfl, nofun⟩ trivial nofun nofun nofun, hi.linked, hi.served⟩
    · cases hs
  | unlock f =>
    simp only [Fibers.Mutex.step] at hs
    split at hs
    · next hf =>
      split at hs
      · next hh =>
        obtain rfl := Option.some.inj hs
        exact ⟨hi.inv.pass hf (.inl hh) rfl rfl ⟨rfl, rfl, nofun⟩ ⟨rfl, rfl, rfl, rfl, rfl, nofun⟩ rfl nofun,
          hi.linked, hi.served⟩
      · cases hs
    · cases hs
  | step f sp o =>
    have hinv := hi.inv.fiber_step hfew hs
    obtain ⟨l, hp, hv⟩ := hi.inv.parks_step (h := h) hs
    have hlen : (schedules h).length ≤ s.q.values.length := hi.inv.n_le
    by_cases hsch : ∃ u, s.pc f = .schedule u
    · obtain ⟨u, hu⟩ := hsch
      have hrun : schedules ((.step f sp o, s) :: h) = schedules h ++ [u] := by
        rw [schedules, hu]
      have hget : s.q.values[(schedules h).length]? = some u := by
        rw [← hi.inv.handing_eq (f := f) (by rw [hu]; rfl), State.handing, hu]
      obtain ⟨hlt, -⟩ := List.getElem?_eq_some_iff.1 hget
      refine ⟨?_, by rw [hp, hv, hi.linked], ?_⟩
      · rw [hu] at hinv
        rwa [hrun, List.length_append]
      · rw [hrun, hv, List.length_append, List.length_singleton,
          List.take_append_of_le_length (by omega), List.take_add_one, hget]
        exact congrArg (· ++ [u]) hi.served
    · have hrun : schedules ((.step f sp o, s) :: h) = schedules h := by
        rw [schedules]
        split
        · next u hu => exact absurd ⟨u, hu⟩ hsch
        · rfl
      have hzero : (s.pc f).scheds = 0 := by
        cases hpc : s.pc f <;> first | rfl | exact absurd ⟨_, hpc⟩ hsch
      refine ⟨?_, by rw [hp, hv, hi.linked], ?_⟩
      · rw [hzero] at hinv
        rwa [hrun]
      · rw [hrun, hv, List.take_append_of_le_length hlen]
        exact hi.served

theorem Told.correct (hi : Told h s) : Correct h s where
  exclusive f g hf hg := hi.inv.tokens.unique (.inl hf) (.inl hg)
  owner _ _ := hi.inv.owner
  locked := hi.inv.locked_iff
  waiters := hi.inv.waiters_iff
  parked _ hf := (hi.inv.parked_kept hf).2
  value f := by
    have hok := hi.inv.queue.ok f
    constructor
    · intro hf
      rw [hf] at hok
      exact hok.2 rfl
    · intro hf
      rw [hf] at hok
      exact hok
  scheduled f u hf := ⟨.inr ⟨f, by rw [State.handing, hf]⟩, hi.inv.got_parked hf⟩
  order := by
    refine ⟨s.inHands (schedules h).length, ?_, ?_, ?_, hi.inv.mem_inHands⟩
    · rw [hi.linked, List.append_assoc, ← drop_eq hi.inv.n_le_taken]
      exact (List.take_append_drop _ _).symm.trans (congrArg (· ++ _) hi.served.symm)
    · have h1 := hi.inv.flow.taken
      have h2 := hi.inv.sum_handing_le
      have h3 : (s.inHands (schedules h).length).length ≤ s.q.taken - (schedules h).length :=
        List.length_take_le ..
      omega
    · rw [← drop_eq hi.inv.n_le_taken]
      exact hi.inv.flow.nodup
  kept u hu := ⟨(hi.inv.parked_kept hu).1, hi.inv.locked_iff.1 (hi.inv.parked_kept hu).2⟩
  goesOn f hidle hpark := hi.inv.goesOn hidle hpark

end histories

end Fibers.Mutex
