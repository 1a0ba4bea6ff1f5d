import ConcurrencyCourse.Steal.Safety

/-!
# `WorkStealingQueue`: when `Grab` finds nothing (lockfree/steal/work_stealing_queue.hpp 75-94, 114-116)

`CountElements` takes the difference of two loads. `head_` only grows up to `tail_`, so with `head_` loaded first the
two are equal only if the queue was empty at the first load. With `tail_` loaded first there is a gap: the owner pushes
onto a queue that is not empty, the old items are taken, and `head_` is loaded at the `tail_` of before
(`Overtaken`). `grab_empty_truthful` is about the runs in which no count answers 0 after such a push; `false_empty`
is a run in which one does.
-/

namespace Steal

open Transition

variable {ι α : Type} [DecidableEq ι] {c : Capacity} {h : History (State ι α) (Act ι α)} {s s' : State ι α}
  {a : Act ι α} {i : ι} {n : Nat}

/-- Thread `i` calls `Grab`. -/
def grabs (i : ι) : Act ι α → Prop
  | .grab j _ => j = i
  | _ => False

/-- The size of the output buffer in the last `Grab` of thread `i`. -/
def asked (i : ι) : History (State ι α) (Act ι α) → Option Nat
  | [] => none
  | (.grab j n, _) :: h => if j = i then some n else asked i h
  | _ :: h => asked i h

/-- The owner publishes an item after the `tail_` that thread `i` has loaded, and the queue was not empty. -/
def overtakes (i : ι) (s : State ι α) : Act ι α → Prop
  | .own _ => (∃ x t, s.own = .pushPublish x t) ∧ (∃ n ch, s.thief i = .countT n ch s.q.tail) ∧ s.q.head ≠ s.q.tail
  | _ => False

/-- The owner did so since thread `i` loaded `tail_`. -/
def Overtaken (i : ι) : History (State ι α) (Act ι α) → Prop
  | [] => False
  | (a, s) :: h => (∀ n ch, s.thief i ≠ .grabLoop n ch) ∧ (overtakes i s a ∨ Overtaken i h)

/-- No `CountElements` that has been overtaken finds `head_` at the `tail_` that it loaded. -/
def Clean : History (State ι α) (Act ι α) → Prop
  | [] => True
  | (a, s) :: h => Clean h ∧ ∀ i n ch t tf, a = .thief i tf → s.thief i = .countT n ch t → s.q.head = t →
      ¬ Overtaken i h

/-- Thread `i` in a `Grab` with a buffer of size `n`; `empty` stands for "at some moment of this call". -/
def Truthful (empty overtaken : Prop) (n : Nat) (q : Queue α) : Thief α → Prop
  | .idle => True
  | .grabHead m | .grabLoop m _ => m = n
  | .countT m _ t => m = n ∧ t ≤ q.tail ∧ (overtaken ∨ (q.tail ≠ t → empty))
  | .countH m _ h' => m = n ∧ h' ≤ q.head ∧ (h' = q.tail → empty)
  | .grabCopy m _ k _ => m = n ∧ 0 < k
  | .grabDone out => out = [] → empty

/-- No counter wraps. -/
def small (s : State ι α) : Prop := s.q.tail < 2 ^ 64

/-! ## Steps of others -/

omit [DecidableEq ι] in
theorem Truthful.later (hi : Truthful (During (grabs i) Empty h s) (Overtaken i h) n s.q (s.thief i))
    (hle : s.q.head ≤ s.q.tail) (ha : ¬ grabs i a) (hl : s'.thief i = s.thief i) (hh : s.q.head ≤ s'.q.head)
    (ht : s.q.tail ≤ s'.q.tail)
    (hp : s'.q.tail ≠ s.q.tail → (∃ tf, a = .own tf) ∧ ∃ x t, s.own = .pushPublish x t) :
    Truthful (During (grabs i) Empty ((a, s) :: h) s') (Overtaken i ((a, s) :: h)) n s'.q (s'.thief i) := by
  rw [hl]
  cases hpc : s.thief i with
  | idle => trivial
  | grabHead m | grabLoop m ch =>
    rw [hpc] at hi
    exact hi
  | countT m ch t =>
    rw [hpc] at hi
    obtain ⟨hm, hle', hor⟩ := hi
    have hload : ∀ n ch, s.thief i ≠ .grabLoop n ch := by
      rw [hpc]
      nofun
    refine ⟨hm, Nat.le_trans hle' ht, ?_⟩
    rcases hor with ho | hempty
    · exact .inl ⟨hload, .inr ho⟩
    · by_cases htail : s.q.tail = t
      · -- the item that is published now comes after the loaded `tail_`
        by_cases hq : s.q.head = s.q.tail
        · exact .inr fun _ => .later (.now hq) ha
        · by_cases hsame : s'.q.tail = s.q.tail
          · exact .inr fun hne => absurd (hsame.trans htail) hne
          · obtain ⟨⟨tf, rfl⟩, hown⟩ := hp hsame
            exact .inl ⟨hload, .inl ⟨hown, ⟨m, ch, htail ▸ hpc⟩, hq⟩⟩
      · exact .inr fun _ => .later (hempty htail) ha
  | countH m ch h' =>
    rw [hpc] at hi
    obtain ⟨hm, hle', hempty⟩ := hi
    exact ⟨hm, Nat.le_trans hle' hh, fun he => .later (hempty (by omega)) ha⟩
  | grabCopy m ch k out =>
    rw [hpc] at hi
    exact hi
  | grabDone out =>
    rw [hpc] at hi
    exact fun ho => .later (hi ho) ha

omit [DecidableEq ι] in
theorem ownStep_grows {tf : Bool} (hi : Inv c h s) (hs : ownStep c s tf = some s') : s'.thief = s.thief ∧
    s.q.head ≤ s'.q.head ∧ s.q.tail ≤ s'.q.tail ∧
    (s'.q.tail ≠ s.q.tail → ∃ x t, s.own = .pushPublish x t) := by
  have hown := hi.own
  unfold ownStep at hs
  cases hpc : s.own with
  | pushPublish x t =>
    simp only [hpc, Option.some.injEq] at hs
    subst hs
    rw [hpc] at hown
    obtain ⟨rfl, -, -⟩ := hown
    exact ⟨rfl, Nat.le_refl _, Nat.le_succ _, fun _ => ⟨x, _, rfl⟩⟩
  | popCas ch x =>
    simp only [hpc] at hs
    split at hs
    · next heq =>
      obtain rfl := Option.some.inj hs
      exact ⟨rfl, heq ▸ Nat.le_succ _, Nat.le_refl _, fun h => absurd rfl h⟩
    · obtain rfl := Option.some.inj hs
      exact ⟨rfl, Nat.le_refl _, Nat.le_refl _, fun h => absurd rfl h⟩
  | idle =>
    simp only [hpc] at hs
    cases hs
  | _ =>
    simp only [hpc, Option.some.injEq] at hs
    subst hs
    exact ⟨rfl, Nat.le_refl _, Nat.le_refl _, fun h => absurd rfl h⟩

theorem thiefStep_grows {j : ι} {tf : Bool} (hs : thiefStep c s j tf = some s') :
    (∀ i, i ≠ j → s'.thief i = s.thief i) ∧ s.q.head ≤ s'.q.head ∧ s'.q.tail = s.q.tail := by
  unfold thiefStep at hs
  cases hpc : s.thief j with
  | idle =>
    simp only [hpc] at hs
    cases hs
  | grabCopy m ch k out =>
    simp only [hpc] at hs
    split at hs
    · obtain rfl := Option.some.inj hs
      exact ⟨fun i hi => Function.update_of_ne hi .., Nat.le_refl _, rfl⟩
    · split at hs
      · next heq =>
        obtain rfl := Option.some.inj hs
        exact ⟨fun i hi => Function.update_of_ne hi .., heq ▸ Nat.le_add_right _ _, rfl⟩
      · obtain rfl := Option.some.inj hs
        exact ⟨fun i hi => Function.update_of_ne hi .., Nat.le_refl _, rfl⟩
  | _ =>
    simp only [hpc, Option.some.injEq] at hs
    subst hs
    exact ⟨fun i hi => Function.update_of_ne hi .., Nat.le_refl _, rfl⟩

/-! ## The steps of the `Grab` itself -/

/-- The two words of a count are equal only if the counters are. -/
theorem eq_of_subSize {x y : Nat} (h : subSize x y = 0) (hx : x < 2 ^ 64) (hy : y < 2 ^ 64) : x = y := by
  unfold subSize at h
  omega

theorem Truthful.counted {empty overtaken : Prop} {q : Queue α} {ch cnt : Nat} (h0 : 0 < n)
    (he : cnt = 0 → empty) : Truthful empty overtaken n q (counted n ch cnt) := by
  unfold Steal.counted
  split
  · next h => exact fun _ => he h
  · refine ⟨rfl, ?_⟩
    split
    · exact h0
    · omega

theorem Truthful.step {tf : Bool} (hi : Truthful (During (grabs i) Empty h s) (Overtaken i h) n s.q (s.thief i))
    (hle : s.q.head ≤ s.q.tail) (h0 : 0 < n) (hsmall : small s)
    (hclean : ∀ n ch t, s.thief i = .countT n ch t → s.q.head = t → ¬ Overtaken i h)
    (hs : thiefStep c s i tf = some s') :
    Truthful (During (grabs i) Empty ((.thief i tf, s) :: h) s') (Overtaken i ((.thief i tf, s) :: h)) n s'.q
      (s'.thief i) := by
  unfold thiefStep at hs
  unfold small at hsmall
  cases hpc : s.thief i with
  | idle =>
    simp only [hpc] at hs
    cases hs
  | grabHead m =>
    simp only [hpc, Option.some.injEq] at hs
    subst hs
    rw [hpc] at hi
    change Truthful _ _ _ _ (Function.update s.thief i _ i)
    rw [Function.update_self]
    exact hi
  | grabLoop m ch =>
    simp only [hpc, Option.some.injEq] at hs
    subst hs
    rw [hpc] at hi
    obtain rfl : m = n := hi
    change Truthful _ _ _ _ (Function.update s.thief i _ i)
    rw [Function.update_self]
    cases tf with
    | true => exact ⟨rfl, Nat.le_refl _, .inr fun h => absurd rfl h⟩
    | false => exact ⟨rfl, Nat.le_refl _, fun he => .now he⟩
  | countT m ch t =>
    simp only [hpc, Option.some.injEq] at hs
    subst hs
    rw [hpc] at hi
    obtain ⟨rfl, hle', hor⟩ := hi
    change Truthful _ _ _ _ (Function.update s.thief i _ i)
    rw [Function.update_self]
    refine .counted h0 fun hcnt => ?_
    have heq := eq_of_subSize hcnt (by omega) (by omega)
    by_cases htail : s.q.tail = t
    · exact .now (heq.symm.trans htail.symm)
    · exact .later (hor.resolve_left (hclean m ch t hpc heq.symm) htail) id
  | countH m ch h' =>
    simp only [hpc, Option.some.injEq] at hs
    subst hs
    rw [hpc] at hi
    obtain ⟨rfl, hle', hempty⟩ := hi
    change Truthful _ _ _ _ (Function.update s.thief i _ i)
    rw [Function.update_self]
    refine .counted h0 fun hcnt => ?_
    have heq := eq_of_subSize hcnt (by omega) (by omega)
    exact .later (hempty heq.symm) id
  | grabCopy m ch k out =>
    simp only [hpc] at hs
    rw [hpc] at hi
    obtain ⟨rfl, hk⟩ := hi
    split at hs
    · obtain rfl := Option.some.inj hs
      change Truthful _ _ _ _ (Function.update s.thief i _ i)
      rw [Function.update_self]
      exact ⟨rfl, hk⟩
    · next hlen =>
      split at hs
      · obtain rfl := Option.some.inj hs
        change Truthful _ _ _ _ (Function.update s.thief i _ i)
        rw [Function.update_self]
        rintro rfl
        exact absurd hk hlen
      · obtain rfl := Option.some.inj hs
        change Truthful _ _ _ _ (Function.update s.thief i _ i)
        rw [Function.update_self]
        exact rfl
  | grabDone out =>
    simp only [hpc, Option.some.injEq] at hs
    subst hs
    change Truthful _ _ _ _ (Function.update s.thief i _ i)
    rw [Function.update_self]
    trivial

/-! ## Every run -/

theorem asked_later (ha : ¬ grabs i a) : asked i ((a, s) :: h) = asked i h := by
  cases a with
  | grab j m => exact if_neg ha
  | _ => rfl

theorem truthful_run (r : Run (system ι α c) (fun s _ => small s) h s) (hc : Clean h) (h0 : 0 < n)
    (hn : asked i h = some n) : Truthful (During (grabs i) Empty h s) (Overtaken i h) n s.q (s.thief i) := by
  induction r with
  | init => cases hn
  | @step h s s' a r hsmall hs ih =>
    have hinv := inv_of_run (r.mono fun _ _ _ => trivial)
    obtain ⟨hc, hclean⟩ := hc
    by_cases ha : grabs i a
    · cases a with
      | grab j m =>
        obtain rfl : j = i := ha
        obtain rfl : m = n := Option.some.inj ((if_pos rfl).symm.trans hn)
        simp only [system, step] at hs
        split at hs
        · obtain rfl := Option.some.inj hs
          change Truthful _ _ _ _ (Function.update s.thief j _ j)
          rw [Function.update_self]
          exact rfl
        · cases hs
      | _ => cases ha
    · rw [asked_later ha] at hn
      have hi := ih hc hn
      cases a with
      | push x =>
        simp only [system, step] at hs
        split at hs
        · obtain rfl := Option.some.inj hs
          exact hi.later hinv.le ha rfl (Nat.le_refl _) (Nat.le_refl _) fun h => absurd rfl h
        · cases hs
      | pop =>
        simp only [system, step] at hs
        split at hs
        · obtain rfl := Option.some.inj hs
          exact hi.later hinv.le ha rfl (Nat.le_refl _) (Nat.le_refl _) fun h => absurd rfl h
        · cases hs
      | own tf =>
        obtain ⟨hl, hh, ht, hp⟩ := ownStep_grows hinv hs
        exact hi.later hinv.le ha (congrFun hl i) hh ht fun h => ⟨⟨tf, rfl⟩, hp h⟩
      | grab j m =>
        simp only [system, step] at hs
        split at hs
        · obtain rfl := Option.some.inj hs
          have hji : i ≠ j := fun h => ha h.symm
          exact hi.later hinv.le ha (Function.update_of_ne hji ..) (Nat.le_refl _) (Nat.le_refl _)
            fun h => absurd rfl h
        · cases hs
      | thief j tf =>
        by_cases hj : i = j
        · subst hj
          exact hi.step hinv.le h0 hsmall (fun n ch t => hclean i n ch t tf rfl) hs
        · obtain ⟨hl, hh, ht⟩ := thiefStep_grows hs
          exact hi.later hinv.le ha (hl i hj) hh (Nat.le_of_eq ht.symm) fun h => absurd ht h

/-- In a run in which no overtaken count finds `head_` at the `tail_` it loaded, a `Grab` with a buffer that is not
empty answers 0 only if the queue was empty at some moment of the call. -/
theorem grab_empty_truthful (r : Run (system ι α c) (fun s _ => small s) h s) (hc : Clean h) (h0 : 0 < n)
    (hn : asked i h = some n) (hd : s.thief i = .grabDone []) : During (grabs i) Empty h s := by
  have hi := truthful_run r hc h0 hn
  rw [hd] at hi
  exact hi rfl

/-- The owner has pushed `1`. The thread loads `tail_`, the owner pops `1` and pushes `2`, and the thread loads `head_`:
it answers 0, and the queue was empty between the pop and the push. -/
theorem grab_empty_truthful_between : ∃ h s, Run (system (Fin 1) Nat ⟨3, by decide⟩) (fun s _ => small s) h s ∧
    (s.thief 0 = .grabDone [] ∧ s.pushed = [1, 2] ∧ s.taken = [some 1]) ∧ During (grabs 0) Empty h s := by
  have hs : ∀ {n : Nat}, n < 100 → n < 2 ^ 64 := fun h => Nat.lt_trans h (by decide)
  have r : Run (system (Fin 1) Nat ⟨3, by decide⟩) (fun s _ => small s) [] init := .init rfl
  have r := r.step (a := Act.push 1) (hs (by decide)) rfl
  have r := r.step (a := Act.own true) (hs (by decide)) rfl
  have r := r.step (a := Act.own true) (hs (by decide)) rfl
  have r := r.step (a := Act.own true) (hs (by decide)) rfl
  have r := r.step (a := Act.own true) (hs (by decide)) rfl
  have r := r.step (a := Act.own true) (hs (by decide)) rfl
  have r := r.step (a := Act.own true) (hs (by decide)) rfl
  have r := r.step (a := Act.grab 0 1) (hs (by decide)) rfl
  have r := r.step (a := Act.thief 0 true) (hs (by decide)) rfl
  have r := r.step (a := Act.thief 0 true) (hs (by decide)) rfl
  have r := r.step (a := Act.pop) (hs (by decide)) rfl
  have r := r.step (a := Act.own true) (hs (by decide)) rfl
  have r := r.step (a := Act.own true) (hs (by decide)) rfl
  have r := r.step (a := Act.own true) (hs (by decide)) rfl
  have r := r.step (a := Act.own true) (hs (by decide)) rfl
  have r := r.step (a := Act.own true) (hs (by decide)) rfl
  have r := r.step (a := Act.own true) (hs (by decide)) rfl
  have r := r.step (a := Act.push 2) (hs (by decide)) rfl
  have r := r.step (a := Act.own true) (hs (by decide)) rfl
  have r := r.step (a := Act.own true) (hs (by decide)) rfl
  have r := r.step (a := Act.own true) (hs (by decide)) rfl
  have r := r.step (a := Act.own true) (hs (by decide)) rfl
  have r := r.step (a := Act.own true) (hs (by decide)) rfl
  have r := r.step (a := Act.thief 0 true) (hs (by decide)) rfl
  refine ⟨_, _, r, ⟨rfl, rfl, rfl⟩, grab_empty_truthful r ?_ Nat.one_pos rfl rfl⟩
  simp [Clean, Overtaken, overtakes, init]

/-- The owner has pushed `1`. The thread loads `tail_`, the owner pushes `2` and pops `1`, and the thread loads `head_`:
it answers 0, and there was always something in the queue. -/
theorem false_empty : ∃ h s, Run (system (Fin 1) Nat ⟨3, by decide⟩) anyStep h s ∧ asked 0 h = some 1 ∧
    s.thief 0 = .grabDone [] ∧ ¬ During (grabs 0) Empty h s := by
  have r : Run (system (Fin 1) Nat ⟨3, by decide⟩) anyStep [] init := .init rfl
  have r := r.step (a := Act.push 1) trivial rfl
  have r := r.step (a := Act.own true) trivial rfl
  have r := r.step (a := Act.own true) trivial rfl
  have r := r.step (a := Act.own true) trivial rfl
  have r := r.step (a := Act.own true) trivial rfl
  have r := r.step (a := Act.own true) trivial rfl
  have r := r.step (a := Act.own true) trivial rfl
  have r := r.step (a := Act.grab 0 1) trivial rfl
  have r := r.step (a := Act.thief 0 true) trivial rfl
  have r := r.step (a := Act.thief 0 true) trivial rfl
  have r := r.step (a := Act.push 2) trivial rfl
  have r := r.step (a := Act.own true) trivial rfl
  have r := r.step (a := Act.own true) trivial rfl
  have r := r.step (a := Act.own true) trivial rfl
  have r := r.step (a := Act.own true) trivial rfl
  have r := r.step (a := Act.own true) trivial rfl
  have r := r.step (a := Act.own true) trivial rfl
  have r := r.step (a := Act.pop) trivial rfl
  have r := r.step (a := Act.own true) trivial rfl
  have r := r.step (a := Act.own true) trivial rfl
  have r := r.step (a := Act.own true) trivial rfl
  have r := r.step (a := Act.own true) trivial rfl
  have r := r.step (a := Act.own true) trivial rfl
  have r := r.step (a := Act.thief 0 true) trivial rfl
  refine ⟨_, _, r, rfl, rfl, ?_⟩
  simp [During, grabs, Empty, init]

end Steal
