import ConcurrencyCourse.Futures.SharedState
import Mathlib.Data.List.Permutation

/-!
# `First` and `Both` (futures/fun/exe/futures/combine/par/{first,all}.hpp)

Both combinators subscribe one callback to each input, and the two callbacks hold copies of the promise
of the output. An input completes, with its callback (the inputs are `Via(Inline())`), or the consumer
subscribes to the output or gets it: each of these is one event here.

`First` calls `SetResult` twice when both inputs succeed, `Both` when both fail. What the consumer sees
then depends on the order (`submitted_sets`, `got_sets`); `par_correct_iff` says exactly when it is what
the readme promises.
-/

namespace Futures

/-- The output: its state, the tasks that were submitted, and what `Get` returned. -/
structure Output (R κ : Type) where
  state : SharedState R κ
  submitted : List (Option R × Option κ)
  got : Option R

namespace Output

variable {R κ : Type}

def new : Output R κ := ⟨.new, [], none⟩

/-- `promise.Set(r)`. -/
def set (o : Output R κ) (r : R) : Output R κ :=
  { o with state := (o.state.setResult r).1
           submitted := o.submitted ++ (o.state.setResult r).2.toList }

/-- `future.Subscribe(k)`. -/
def subscribe (o : Output R κ) (k : κ) : Output R κ :=
  { o with state := (o.state.setCallback k).1
           submitted := o.submitted ++ (o.state.setCallback k).2.toList }

/-- `future.GetResult()`, when there is a result. -/
def get (o : Output R κ) : Option (Output R κ) :=
  o.state.syncGet.map fun r => { o with got := some r }

/-- Copies of one promise set several results. -/
def sets (o : Output R κ) (l : List R) : Output R κ := l.foldl set o

theorem sets_cons (o : Output R κ) (r : R) (l : List R) : o.sets (r :: l) = (o.set r).sets l := rfl

theorem sets_append (o : Output R κ) (l l' : List R) : o.sets (l ++ l') = (o.sets l).sets l' :=
  List.foldl_append

/-- Before a subscription the last result counts. -/
theorem sets_new (l : List R) : (new.sets l : Output R κ) =
    ⟨⟨l.getLast?, none, .inline, if l = [] then .initial else .resultSet⟩, [], none⟩ := by
  induction l using List.reverseRecOn with
  | nil => rfl
  | append_singleton l r ih =>
    rw [sets_append, ih]
    by_cases hl : l = [] <;>
      simp [sets, set, SharedState.setResult, SharedState.exchangeResult, SharedState.emplace, hl]

/-- Once the word is `ResultSet`, a further result submits nothing. -/
theorem submitted_of_resultSet {o : Output R κ} (hw : o.state.word = .resultSet) (l : List R) :
    (o.sets l).submitted = o.submitted := by
  induction l generalizing o with
  | nil => rfl
  | cons r l ih =>
    have hset : (o.set r).state.word = .resultSet ∧ (o.set r).submitted = o.submitted := by
      simp [set, SharedState.setResult, SharedState.exchangeResult, SharedState.emplace, hw]
    rw [sets_cons, ih hset.1, hset.2]

/-- A subscription between the results `l` and `l'`: the last of `l` is submitted, and then the first of
`l'`, with an empty callback; the callback goes to the first of `l'` only if `l` is empty. -/
theorem submitted_sets (l l' : List R) (k : κ) :
    (((new.sets l).subscribe k).sets l').submitted =
      match l.getLast? with
      | none => (l'.head?.map fun r => (some r, some k)).toList
      | some r => (some r, some k) :: (l'.head?.map fun r' => (some r', none)).toList := by
  rw [sets_new]
  cases hl : l.getLast? with
  | none =>
    obtain rfl : l = [] := List.getLast?_eq_none_iff.1 hl
    cases l' with
    | nil => rfl
    | cons r l' =>
      rw [sets_cons, submitted_of_resultSet]
      · rfl
      · rfl
  | some r =>
    have hne : l ≠ [] := by rintro rfl; cases hl
    cases l' with
    | nil => simp [sets, subscribe, SharedState.setCallback, SharedState.exchangeCallback,
        SharedState.store, SharedState.submit, hne]
    | cons r' l' =>
      rw [sets_cons, submitted_of_resultSet]
      · simp [set, subscribe, SharedState.setCallback, SharedState.exchangeCallback, SharedState.store,
          SharedState.submit, SharedState.setResult, SharedState.exchangeResult, SharedState.emplace, hne]
      · simp [set, subscribe, SharedState.setCallback, SharedState.exchangeCallback, SharedState.store,
          SharedState.submit, SharedState.setResult, SharedState.exchangeResult, SharedState.emplace, hne]

theorem sets_got (o : Output R κ) (l : List R) : (o.sets l).got = o.got := by
  induction l generalizing o with
  | nil => rfl
  | cons r l ih => exact ih (o.set r)

/-- `Get` returns the last result there is. -/
theorem got_sets {l : List R} {o : Output R κ} (ho : (new.sets l).get = some o) :
    o.got = l.getLast? := by
  rw [sets_new] at ho
  obtain ⟨r, hr, rfl⟩ := Option.map_eq_some_iff.1 ho
  exact hr.symm

section pair

variable {c₁ c₂ : Option R} {x : R} (k : κ)

/-! Two results at most, the subscription or `Get` before, between or after them. -/

theorem submits_before (hx : c₁.or c₂ = some x) :
    (((new.subscribe k).sets c₁.toList).sets c₂.toList).submitted = [(some x, some k)] := by
  rw [← sets_append]
  refine (submitted_sets [] (c₁.toList ++ c₂.toList) k).trans ?_
  cases c₁ <;> cases c₂ <;> simp_all

theorem submits_between (hx : c₁.or c₂ = some x) :
    (((new.sets c₁.toList).subscribe k).sets c₂.toList).submitted = [(some x, some k)] ↔
      c₁ = none ∨ c₂ = none := by
  rw [submitted_sets]
  cases c₁ <;> cases c₂ <;> simp_all

theorem submits_after (hx : c₁.or c₂ = some x) :
    (((new.sets c₁.toList).sets c₂.toList).subscribe k).submitted = [(some x, some k)] ↔
      (c₁ = none ∨ c₂ = none) ∨ c₁ = c₂ := by
  have h : ∀ l : List R, ((new.sets l).subscribe k).submitted = _ := fun l => submitted_sets l [] k
  rw [← sets_append, h]
  cases c₁ <;> cases c₂ <;> simp_all [eq_comm]

omit k in
theorem got_between (hx : c₁.or c₂ = some x) {o : Output R κ}
    (ho : (new.sets c₁.toList).get = some o) : (o.sets c₂.toList).got = some x := by
  rw [sets_got, got_sets ho]
  cases c₁ with
  | none => simp [sets, new, get, SharedState.syncGet, SharedState.new] at ho
  | some y => simpa using hx

omit k in
theorem got_after (hx : c₁.or c₂ = some x) {o : Output R κ}
    (ho : ((new.sets c₁.toList).sets c₂.toList).get = some o) :
    o.got = some x ↔ (c₁ = none ∨ c₂ = none) ∨ c₁ = c₂ := by
  rw [← sets_append] at ho
  rw [got_sets ho]
  cases c₁ <;> cases c₂ <;> simp_all [eq_comm]

end pair

end Output

/-! ## The combinators -/

inductive Event where
  | first
  | second
  | subscribe
  | get
  deriving DecidableEq, Repr

/-- A combinator at work: what its callbacks share, and the output. -/
structure Par (σ R κ : Type) where
  shared : σ
  out : Output R κ

variable {σ R κ V X Y E : Type}

/-- An input completes: its callback works on the shared state and may set the promise. -/
def Par.complete (s : Par σ R κ) (cb : σ → σ × Option R) : Par σ R κ :=
  ⟨(cb s.shared).1, s.out.sets (cb s.shared).2.toList⟩

def Par.step (cb₁ cb₂ : σ → σ × Option R) (k : κ) (s : Par σ R κ) : Event → Option (Par σ R κ)
  | .first => some (s.complete cb₁)
  | .second => some (s.complete cb₂)
  | .subscribe => some { s with out := s.out.subscribe k }
  | .get => s.out.get.map fun o => { s with out := o }

/-- The events in some order; `none` when `Get` would have to wait. -/
def Par.run (σ₀ : σ) (cb₁ cb₂ : σ → σ × Option R) (k : κ) (order : List Event) : Option (Par σ R κ) :=
  order.foldlM (Par.step cb₁ cb₂ k) ⟨σ₀, .new⟩

/-- What the inputs complete with, in the order in which they do. -/
def inOrder {α : Type} (order : List Event) (a₁ a₂ : α) : α × α :=
  if order.idxOf .first < order.idxOf .second then (a₁, a₂) else (a₂, a₁)

/-- `cb` of `First`; the shared state is `cb_cnt->value`. -/
def First.cb (r : Result V E) (value : Nat) : Nat × Option (Result V E) :=
  match r with
  | .ok _ => (value, some r)
  | .error _ => (value - 1, if value = 1 then some r else none)

/-- `cb` of `Both`, for either input; the shared state is `cb_cnt->value` and `res_tup`. -/
def Both.cb (r : Result X E ⊕ Result Y E) (s : Nat × X × Y) : (Nat × X × Y) × Option (Result (X × Y) E) :=
  let done (tup : X × Y) := ((s.1 - 1, tup), if s.1 = 1 then some (ok tup) else none)
  match r with
  | .inl (.ok x) => done (x, s.2.2)
  | .inr (.ok y) => done (s.2.1, y)
  | .inl (.error e) | .inr (.error e) => (s, some (err e))

/-- `First(f1, f2)`. -/
def First.run (r₁ r₂ : Result V E) (k : κ) (order : List Event) : Option (Par Nat (Result V E) κ) :=
  Par.run 2 (First.cb r₁) (First.cb r₂) k order

/-- `Both(fx, fy)`; `tup` is the default of the tuple. -/
def Both.run (tup : X × Y) (r₁ : Result X E) (r₂ : Result Y E) (k : κ) (order : List Event) :
    Option (Par (Nat × X × Y) (Result (X × Y) E) κ) :=
  Par.run (2, tup) (Both.cb (.inl r₁)) (Both.cb (.inr r₂)) k order

/-- The first value, or the last error, of `a` and then `b`. -/
def firstValue (a b : Result V E) : Result V E :=
  match a, b with
  | .ok v, _ => ok v
  | .error _, b => b

/-- The two values, or the first error. -/
def bothValues (order : List Event) (r₁ : Result X E) (r₂ : Result Y E) : Result (X × Y) E :=
  match r₁, r₂ with
  | .ok x, .ok y => ok (x, y)
  | .error e, .ok _ | .ok _, .error e => err e
  | .error e₁, .error e₂ => err (inOrder order e₁ e₂).1

/-- The consumer's callback is submitted once, with `r`. -/
def Par.Submits (s : Par σ R κ) (r : R) (k : κ) : Prop := s.out.submitted = [(some r, some k)]

/-! ### What the consumer sees -/

theorem six_orders {order : List Event} {e : Event} (he : e = .subscribe ∨ e = .get)
    (hp : order.Perm [.first, .second, e]) :
    order = [.first, .second, e] ∨ order = [.first, e, .second] ∨ order = [e, .first, .second] ∨
      order = [.second, .first, e] ∨ order = [.second, e, .first] ∨ order = [e, .second, .first] := by
  obtain ⟨a, b, c, rfl⟩ := List.length_eq_three.1 hp.length_eq
  rcases he with rfl | rfl <;> cases a <;> cases b <;> cases c <;> revert hp <;> decide

section order

variable {σ₀ : σ} {cb₁ cb₂ : σ → σ × Option R} {k : κ} {order : List Event} {x : R}

/-- The results that the two completions set, in their order. -/
def Par.sets (σ₀ : σ) (cbs : (σ → σ × Option R) × (σ → σ × Option R)) : Option R × Option R :=
  ((cbs.1 σ₀).2, (cbs.2 (cbs.1 σ₀).1).2)

theorem Par.submits_iff (hp : order.Perm [.first, .second, .subscribe]) {c₁ c₂ : Option R}
    (hc : Par.sets σ₀ (inOrder order cb₁ cb₂) = (c₁, c₂)) (hx : c₁.or c₂ = some x) :
    (∃ s, Par.run σ₀ cb₁ cb₂ k order = some s ∧ s.Submits x k) ↔
      (c₁ = none ∨ c₂ = none) ∨ order.head? = some .subscribe ∨
        order.getLast? = some .subscribe ∧ c₁ = c₂ := by
  have hrun : ∀ {s : Par σ R κ}, Par.run σ₀ cb₁ cb₂ k order = some s →
      ((∃ s, Par.run σ₀ cb₁ cb₂ k order = some s ∧ s.Submits x k) ↔ s.Submits x k) := by
    intro s hs
    rw [hs]
    simp
  rcases six_orders (.inl rfl) hp with rfl | rfl | rfl | rfl | rfl | rfl
  · obtain ⟨rfl, rfl⟩ := Prod.mk.inj (show Par.sets σ₀ (cb₁, cb₂) = _ from hc)
    rw [hrun rfl]
    exact (Output.submits_after k hx).trans (by simp)
  · obtain ⟨rfl, rfl⟩ := Prod.mk.inj (show Par.sets σ₀ (cb₁, cb₂) = _ from hc)
    rw [hrun rfl]
    exact (Output.submits_between k hx).trans (by simp)
  · obtain ⟨rfl, rfl⟩ := Prod.mk.inj (show Par.sets σ₀ (cb₁, cb₂) = _ from hc)
    rw [hrun rfl]
    exact iff_of_true (Output.submits_before k hx) (.inr (.inl rfl))
  · obtain ⟨rfl, rfl⟩ := Prod.mk.inj (show Par.sets σ₀ (cb₂, cb₁) = _ from hc)
    rw [hrun rfl]
    exact (Output.submits_after k hx).trans (by simp)
  · obtain ⟨rfl, rfl⟩ := Prod.mk.inj (show Par.sets σ₀ (cb₂, cb₁) = _ from hc)
    rw [hrun rfl]
    exact (Output.submits_between k hx).trans (by simp)
  · obtain ⟨rfl, rfl⟩ := Prod.mk.inj (show Par.sets σ₀ (cb₂, cb₁) = _ from hc)
    rw [hrun rfl]
    exact iff_of_true (Output.submits_before k hx) (.inr (.inl rfl))

/-- After `Get` the run goes on. -/
theorem Par.get_then {s s' : Par σ R κ} {f : Par σ R κ → Option (Par σ R κ)}
    (h : (Par.step cb₁ cb₂ k s .get).bind f = some s') :
    ∃ o, s.out.get = some o ∧ f { s with out := o } = some s' := by
  obtain ⟨s₁, h₁, h⟩ := Option.bind_eq_some_iff.1 h
  obtain ⟨o, ho, rfl⟩ := Option.map_eq_some_iff.1 h₁
  exact ⟨o, ho, h⟩

theorem Par.got_iff (hp : order.Perm [.first, .second, .get]) {c₁ c₂ : Option R}
    (hc : Par.sets σ₀ (inOrder order cb₁ cb₂) = (c₁, c₂)) (hx : c₁.or c₂ = some x)
    {s : Par σ R κ} (hs : Par.run σ₀ cb₁ cb₂ k order = some s) :
    s.out.got = some x ↔ (c₁ = none ∨ c₂ = none) ∨ order.getLast? ≠ some .get ∨ c₁ = c₂ := by
  rcases six_orders (.inr rfl) hp with rfl | rfl | rfl | rfl | rfl | rfl
  · obtain ⟨rfl, rfl⟩ := Prod.mk.inj (show Par.sets σ₀ (cb₁, cb₂) = _ from hc)
    obtain ⟨o, ho, hs⟩ := Par.get_then hs
    obtain rfl := Option.some.inj (show some _ = some s from hs)
    exact (Output.got_after hx ho).trans (by simp)
  · obtain ⟨rfl, rfl⟩ := Prod.mk.inj (show Par.sets σ₀ (cb₁, cb₂) = _ from hc)
    obtain ⟨o, ho, hs⟩ := Par.get_then hs
    obtain rfl := Option.some.inj (show some _ = some s from hs)
    exact iff_of_true (Output.got_between hx ho) (.inr (.inl (by decide)))
  · cases hs
  · obtain ⟨rfl, rfl⟩ := Prod.mk.inj (show Par.sets σ₀ (cb₂, cb₁) = _ from hc)
    obtain ⟨o, ho, hs⟩ := Par.get_then hs
    obtain rfl := Option.some.inj (show some _ = some s from hs)
    exact (Output.got_after hx ho).trans (by simp)
  · obtain ⟨rfl, rfl⟩ := Prod.mk.inj (show Par.sets σ₀ (cb₂, cb₁) = _ from hc)
    obtain ⟨o, ho, hs⟩ := Par.get_then hs
    obtain rfl := Option.some.inj (show some _ = some s from hs)
    exact iff_of_true (Output.got_between hx ho) (.inr (.inl (by decide)))
  · cases hs

end order


/-! ### What the callbacks set -/

/-- Both inputs succeed: `First` sets its promise twice. -/
def First.SetsTwice (r₁ r₂ : Result V E) : Prop := ∃ v w, r₁ = ok v ∧ r₂ = ok w

/-- Both inputs fail: `Both` sets its promise twice. -/
def Both.SetsTwice (r₁ : Result X E) (r₂ : Result Y E) : Prop := ∃ e e', r₁ = err e ∧ r₂ = err e'

theorem First.sets_spec (r₁ r₂ : Result V E) (order : List Event) :
    ∃ c₁ c₂, Par.sets 2 (inOrder order (First.cb r₁) (First.cb r₂)) = (c₁, c₂) ∧
      c₁.or c₂ = some (firstValue (inOrder order r₁ r₂).1 (inOrder order r₁ r₂).2) ∧
      ((c₁ = none ∨ c₂ = none) ↔ ¬ First.SetsTwice r₁ r₂) ∧ (First.SetsTwice r₁ r₂ → (c₁ = c₂ ↔ r₁ = r₂)) := by
  unfold inOrder
  split <;> cases r₁ <;> cases r₂ <;>
    exact ⟨_, _, rfl, rfl, by simp [SetsTwice, First.cb], by simp [SetsTwice, First.cb, eq_comm]⟩

theorem Both.sets_spec (tup : X × Y) (r₁ : Result X E) (r₂ : Result Y E) (order : List Event) :
    ∃ c₁ c₂, Par.sets (2, tup) (inOrder order (Both.cb (.inl r₁)) (Both.cb (.inr r₂))) = (c₁, c₂) ∧
      c₁.or c₂ = some (bothValues order r₁ r₂) ∧
      ((c₁ = none ∨ c₂ = none) ↔ ¬ Both.SetsTwice r₁ r₂) ∧
      (Both.SetsTwice r₁ r₂ → (c₁ = c₂ ↔ ∃ e, r₁ = err e ∧ r₂ = err e)) := by
  unfold bothValues inOrder
  split <;> cases r₁ <;> cases r₂ <;>
    exact ⟨_, _, rfl, rfl, by simp [SetsTwice, Both.cb], by simp [SetsTwice, Both.cb, eq_comm]⟩

/-- Where a subscription can stand without seeing the second of two results. -/
def Event.NotBetween (order : List Event) (same : Prop) : Prop :=
  order.head? = some .subscribe ∨ order.getLast? = some .subscribe ∧ same

/-- `First` and `Both` do what the readme says of them, to a consumer that subscribes or that calls `Get`,
exactly when they do not set the promise twice, or the consumer cannot see the second result. -/
theorem par_correct_iff (tup : X × Y) (r₁ r₂ : Result V E) (rx : Result X E) (ry : Result Y E)
    (k : κ) (order : List Event) :
    (order.Perm [.first, .second, .subscribe] →
      ((∃ s, First.run r₁ r₂ k order = some s ∧
          s.Submits (firstValue (inOrder order r₁ r₂).1 (inOrder order r₁ r₂).2) k) ↔
        ¬ First.SetsTwice r₁ r₂ ∨ Event.NotBetween order (r₁ = r₂)) ∧
      ((∃ s, Both.run tup rx ry k order = some s ∧ s.Submits (bothValues order rx ry) k) ↔
        ¬ Both.SetsTwice rx ry ∨ Event.NotBetween order (∃ e, rx = err e ∧ ry = err e))) ∧
    (order.Perm [.first, .second, .get] →
      (∀ s, First.run r₁ r₂ k order = some s →
        (s.out.got = some (firstValue (inOrder order r₁ r₂).1 (inOrder order r₁ r₂).2) ↔
          ¬ First.SetsTwice r₁ r₂ ∨ order.getLast? ≠ some .get ∨ r₁ = r₂)) ∧
      (∀ s, Both.run tup rx ry k order = some s →
        (s.out.got = some (bothValues order rx ry) ↔
          ¬ Both.SetsTwice rx ry ∨ order.getLast? ≠ some .get ∨ ∃ e, rx = err e ∧ ry = err e))) := by
  obtain ⟨c₁, c₂, hc, hx, hone, hsame⟩ := First.sets_spec r₁ r₂ order
  obtain ⟨d₁, d₂, hd, hy, hone', hsame'⟩ := Both.sets_spec tup rx ry order
  refine ⟨fun hp => ⟨?_, ?_⟩, fun hp => ⟨fun s hs => ?_, fun s hs => ?_⟩⟩
  · refine (Par.submits_iff hp hc hx).trans ?_
    rw [hone]
    by_cases h : First.SetsTwice r₁ r₂
    · simp only [h, not_true_eq_false, false_or, hsame h, Event.NotBetween]
    · simp only [h, not_false_eq_true, true_or]
  · refine (Par.submits_iff hp hd hy).trans ?_
    rw [hone']
    by_cases h : Both.SetsTwice rx ry
    · simp only [h, not_true_eq_false, false_or, hsame' h, Event.NotBetween]
    · simp only [h, not_false_eq_true, true_or]
  · refine (Par.got_iff hp hc hx hs).trans ?_
    rw [hone]
    by_cases h : First.SetsTwice r₁ r₂
    · simp only [h, not_true_eq_false, false_or, hsame h]
    · simp only [h, not_false_eq_true, true_or]
  · refine (Par.got_iff hp hd hy hs).trans ?_
    rw [hone']
    by_cases h : Both.SetsTwice rx ry
    · simp only [h, not_true_eq_false, false_or, hsame' h]
    · simp only [h, not_false_eq_true, true_or]

/-- Two values with the subscription between them: `First` submits a second, empty task. -/
theorem first_submits_twice :
    ∃ s, First.run (ok 1 : Result Nat Nat) (ok 2) () [.first, .subscribe, .second] = some s ∧
      s.out.submitted = [(some (ok 1), some ()), (some (ok 2), none)] ∧ ¬ s.Submits (ok 1) () := by
  refine ⟨_, rfl, rfl, fun h => ?_⟩
  exact absurd (congrArg List.length h) (by decide)

/-- The first error of `Both` is what a consumer between the two sees, and what it does not see after. -/
theorem both_errors_between_after :
    (∃ s, Both.run (0, 0) (err 1 : Result Nat Nat) (err 2) () [.first, .get, .second] = some s ∧
      s.out.got = some (err 1)) ∧
    ¬ ∃ s, Both.run (0, 0) (err 1 : Result Nat Nat) (err 2) () [.first, .second, .subscribe] = some s ∧
      s.Submits (err 1) () := by
  constructor
  · refine ⟨_, rfl, ?_⟩
    refine (((par_correct_iff (0, 0) (err 1 : Result Nat Nat) (err 2) (err 1 : Result Nat Nat) (err 2) ()
      [.first, .get, .second]).2 (by decide)).2 _ rfl).2 (.inr (.inl (by decide)))
  · intro h
    have := (((par_correct_iff (0, 0) (err 1 : Result Nat Nat) (err 2) (err 1 : Result Nat Nat) (err 2) ()
      [.first, .second, .subscribe]).1 (by decide)).2).1 h
    simp [Both.SetsTwice, Event.NotBetween] at this

end Futures
