import ConcurrencyCourse.Lib.Calls
import ConcurrencyCourse.Steal.Safety

/-!
# `WorkStealingQueue`: what the calls return

The calls of the owner and of the thieves, each with the steps at which it takes effect: the store of `tail_` in
`TryPush`, the successful CAS of `head_` in `TryPop` and `Grab`. `Safety.lean` says what these steps do to the
queue; here every returned value is tied to the step of its own call, so that what was handed out is what the calls
have returned.
-/

namespace Steal

open Transition

/-- What a step does for its call. -/
inductive Event (α : Type) where
  /-- `tail_` moves over the item. -/
  | push (item : α)
  /-- `head_` moves over the items, read from the slots. -/
  | take (items : List (Option α))
  deriving DecidableEq

/-- The items that the events published, in order. -/
def pushes {α : Type} (es : List (Event α)) : List α :=
  es.reverse.filterMap fun | .push x => some x | .take _ => none

/-- The items that the events handed out, in order. -/
def takes {α : Type} (es : List (Event α)) : List (Option α) :=
  es.reverse.flatMap fun | .push _ => [] | .take out => out

variable {ι α : Type} [DecidableEq ι] {c : Capacity}

/-- The events of the owner (`none`) and of the thieves. -/
def event (s : State ι α) : Act ι α → Option (Option ι × Event α)
  | .own _ => match s.own with
    | .pushPublish x _ => some (none, .push x)
    | .popCas h x => if s.q.head = h then some (none, .take [x]) else none
    | _ => none
  | .thief i _ => match s.thief i with
    | .grabCopy _ h k out => if k ≤ out.length ∧ s.q.head = h then some (some i, .take out) else none
    | _ => none
  | _ => none

def begins (t : Option ι) : Act ι α → Bool
  | .push _ | .pop => t = none
  | .grab i _ => t = some i
  | _ => false

def calls : Calls (State ι α) (Act ι α) (Option ι) (Event α) := ⟨begins, event⟩

/-- The call that the owner is in, and what it has done so far. -/
def OwnCall (h : History (State ι α) (Act ι α)) : Owner α → Prop
  | .idle => True
  | .pushFull x | .pushFullT x _ | .pushFullH x _ | .pushTail x | .pushSlot x _ | .pushPublish x _ =>
    calls.last none h = some (.push x) ∧ calls.events none h = []
  | .pushDone ok => ∃ x, calls.last none h = some (.push x) ∧ calls.events none h = if ok then [.push x] else []
  | .popHead | .popLoop _ | .popEmptyT _ _ | .popEmptyH _ _ | .popItem _ | .popCas _ _ =>
    calls.last none h = some .pop ∧ calls.events none h = []
  | .popDone result =>
    calls.last none h = some .pop ∧ calls.events none h = result.toList.map fun x => .take [some x]

/-- The call that a thief is in; with nothing in its buffer it may have made a CAS, or none. -/
def ThiefCall (i : ι) (h : History (State ι α) (Act ι α)) : Thief α → Prop
  | .idle => True
  | .grabHead n | .grabLoop n _ | .countT n _ _ | .countH n _ _ =>
    calls.last (some i) h = some (.grab i n) ∧ calls.events (some i) h = []
  | .grabCopy n _ k out =>
    (calls.last (some i) h = some (.grab i n) ∧ calls.events (some i) h = []) ∧ k ≤ n ∧ out.length ≤ k
  | .grabDone out => ∃ n, calls.last (some i) h = some (.grab i n) ∧ out.length ≤ n ∧
      (calls.events (some i) h = [.take out] ∨ out = [] ∧ calls.events (some i) h = [])

/-- The calls, and the histories of the state read off the events. -/
structure CallsOk (h : History (State ι α) (Act ι α)) (s : State ι α) : Prop where
  own : OwnCall h s.own
  thief : ∀ i, ThiefCall i h (s.thief i)
  pushed : s.pushed = pushes (calls.all h)
  taken : s.taken = takes (calls.all h)

section steps

variable {h : History (State ι α) (Act ι α)} {s s' : State ι α} {a : Act ι α}

omit [DecidableEq ι] in
theorem pushes_cons (e : Event α) (es : List (Event α)) :
    pushes (e :: es) = pushes es ++ pushes [e] := by
  simp [pushes]

omit [DecidableEq ι] in
theorem takes_cons (e : Event α) (es : List (Event α)) :
    takes (e :: es) = takes es ++ takes [e] := by
  simp [takes]

/-- A step of somebody else. -/
theorem OwnCall.later (hc : OwnCall h s.own) (hb : begins none a = false) (he : ∀ e, event s a ≠ some (none, e)) :
    OwnCall ((a, s) :: h) s.own := by
  have hl : calls.last none ((a, s) :: h) = calls.last none h := Calls.last_later hb
  have hev : calls.events none ((a, s) :: h) = calls.events none h := Calls.events_later hb he
  unfold OwnCall at hc ⊢
  rwa [hl, hev]

theorem ThiefCall.later {i : ι} (hc : ThiefCall i h (s.thief i)) (hb : begins (some i) a = false)
    (he : ∀ e, event s a ≠ some (some i, e)) : ThiefCall i ((a, s) :: h) (s.thief i) := by
  have hl : calls.last (some i) ((a, s) :: h) = calls.last (some i) h := Calls.last_later hb
  have hev : calls.events (some i) ((a, s) :: h) = calls.events (some i) h := Calls.events_later hb he
  unfold ThiefCall at hc ⊢
  rwa [hl, hev]

/-- After `CountElements`. -/
theorem counted_call {i : ι} {n ch cnt : Nat}
    (hc : calls.last (some i) h = some (.grab i n) ∧ calls.events (some i) h = []) :
    ThiefCall i h (counted n ch cnt) := by
  unfold counted
  split
  · exact ⟨n, hc.1, Nat.zero_le _, .inr ⟨rfl, hc.2⟩⟩
  · exact ⟨hc, by split <;> omega, Nat.zero_le _⟩

omit [DecidableEq ι] in
/-- The event of a step is the event of the thread that takes it. -/
theorem event_own {tf : Bool} {t : Option ι} {e : Event α} (he : event s (.own tf) = some (t, e)) : t = none := by
  simp only [event] at he
  split at he
  · cases he
    rfl
  · split at he
    · cases he
      rfl
    · cases he
  · cases he

omit [DecidableEq ι] in
theorem event_thief {i : ι} {tf : Bool} {t : Option ι} {e : Event α} (he : event s (.thief i tf) = some (t, e)) :
    t = some i := by
  simp only [event] at he
  split at he
  · split at he
    · cases he
      rfl
    · cases he
  · cases he

/-- A step without an event. -/
theorem logs_none {r : State ι α} (hc : CallsOk h s) (he : event s a = none) (hp : r.pushed = s.pushed)
    (ht : r.taken = s.taken) :
    r.pushed = pushes (calls.all ((a, s) :: h)) ∧ r.taken = takes (calls.all ((a, s) :: h)) := by
  have hall : calls.all ((a, s) :: h) = calls.all h := Calls.all_none he
  rw [hall, hp, ht]
  exact ⟨hc.pushed, hc.taken⟩

theorem logs_some (hc : CallsOk h s) {t : Option ι} {e : Event α} (he : event s a = some (t, e))
    (hp : s'.pushed = s.pushed ++ pushes [e]) (ht : s'.taken = s.taken ++ takes [e]) :
    s'.pushed = pushes (calls.all ((a, s) :: h)) ∧ s'.taken = takes (calls.all ((a, s) :: h)) := by
  have hall : calls.all ((a, s) :: h) = e :: calls.all h := Calls.all_some he
  rw [hall, pushes_cons, takes_cons, hp, ht, hc.pushed, hc.taken]
  exact ⟨rfl, rfl⟩

/-- A step of the owner: its call goes on, and the histories grow by the event. -/
theorem CallsOk.ownStep {tf : Bool} (hi : Inv c h s) (hc : CallsOk h s) (hs : ownStep c s tf = some s') :
    (OwnCall ((.own tf, s) :: h) s'.own ∧ s'.thief = s.thief) ∧
      s'.pushed = pushes (calls.all ((.own tf, s) :: h)) ∧ s'.taken = takes (calls.all ((.own tf, s) :: h)) := by
  have hown := hc.own
  have hl : calls.last none ((.own tf, s) :: h) = calls.last none h := Calls.last_later rfl
  have hsome : ∀ e, event s (.own tf : Act ι α) = some (none, e) →
      calls.events none ((.own tf, s) :: h) = e :: calls.events none h := fun e he => Calls.events_some rfl he
  -- a step without an event: the call is where it says it is
  have quiet : ∀ {o}, some { s with own := o } = some s' → event s (.own tf : Act ι α) = none → OwnCall h o →
      (OwnCall ((.own tf, s) :: h) s'.own ∧ s'.thief = s.thief) ∧
        s'.pushed = pushes (calls.all ((.own tf, s) :: h)) ∧ s'.taken = takes (calls.all ((.own tf, s) :: h)) := by
    intro o hs he ho
    obtain rfl := Option.some.inj hs
    have hev : calls.events none ((.own tf, s) :: h) = calls.events none h :=
      Calls.events_later rfl fun e heq => by cases he.symm.trans heq
    refine ⟨⟨?_, rfl⟩, logs_none hc he rfl rfl⟩
    unfold OwnCall at ho ⊢
    rwa [hl, hev]
  unfold Steal.ownStep at hs
  cases hpc : s.own <;> rw [hpc] at hown <;> simp only [hpc] at hs
  case idle => cases hs
  case pushFull x =>
    refine quiet hs (by simp only [event, hpc]) ?_
    cases tf <;> exact hown
  case pushFullT x t =>
    refine quiet hs (by simp only [event, hpc]) ?_
    split
    · exact ⟨x, hown⟩
    · exact hown
  case pushFullH x hd =>
    refine quiet hs (by simp only [event, hpc]) ?_
    split
    · exact ⟨x, hown⟩
    · exact hown
  case pushTail x => exact quiet hs (by simp only [event, hpc]) hown
  case pushSlot x t =>
    have he : event s (.own tf : Act ι α) = none := by simp only [event, hpc]
    obtain rfl := Option.some.inj hs
    exact ⟨⟨⟨hl.trans hown.1, (Calls.events_later rfl fun e heq => by cases he.symm.trans heq).trans hown.2⟩, rfl⟩,
      logs_none hc he rfl rfl⟩
  case pushPublish x t =>
    have he : event s (.own tf : Act ι α) = some (none, .push x) := by simp only [event, hpc]
    obtain rfl := Option.some.inj hs
    exact ⟨⟨⟨x, hl.trans hown.1, by rw [hsome _ he, hown.2]; rfl⟩, rfl⟩,
      logs_some hc he rfl (List.append_nil _).symm⟩
  case pushDone ok => exact quiet hs (by simp only [event, hpc]) trivial
  case popHead => exact quiet hs (by simp only [event, hpc]) hown
  case popLoop ch =>
    refine quiet hs (by simp only [event, hpc]) ?_
    cases tf <;> exact hown
  case popEmptyT ch t =>
    refine quiet hs (by simp only [event, hpc]) ?_
    split <;> exact hown
  case popEmptyH ch hd =>
    refine quiet hs (by simp only [event, hpc]) ?_
    split <;> exact hown
  case popItem ch => exact quiet hs (by simp only [event, hpc]) hown
  case popCas ch x =>
    split at hs
    · next heq =>
      have he : event s (.own tf : Act ι α) = some (none, .take [x]) := by simp only [event, hpc, heq, if_true]
      -- the slot that was read holds an item
      have hok := hi.own
      rw [hpc] at hok
      obtain ⟨hlt, rfl⟩ := hok.2 heq
      obtain ⟨y, hy⟩ : ∃ y, s.pushed[ch]? = some y := ⟨_, List.getElem?_eq_getElem (by rw [hi.len]; exact hlt)⟩
      obtain rfl := Option.some.inj hs
      refine ⟨⟨⟨hl.trans hown.1, ?_⟩, rfl⟩, logs_some hc he (List.append_nil _).symm rfl⟩
      rw [hsome _ he, hown.2, hy]
      rfl
    · next hne => exact quiet hs (by simp only [event, hpc, hne, if_false]) hown
  case popDone r => exact quiet hs (by simp only [event, hpc]) trivial

/-- A step of a thief. -/
theorem CallsOk.thiefStep {i : ι} {tf : Bool} (hc : CallsOk h s) (hs : thiefStep c s i tf = some s') :
    (ThiefCall i ((.thief i tf, s) :: h) (s'.thief i) ∧ s'.own = s.own ∧ ∀ j, j ≠ i → s'.thief j = s.thief j) ∧
      s'.pushed = pushes (calls.all ((.thief i tf, s) :: h)) ∧
      s'.taken = takes (calls.all ((.thief i tf, s) :: h)) := by
  have hthief := hc.thief i
  have hl : calls.last (some i) ((.thief i tf, s) :: h) = calls.last (some i) h := Calls.last_later rfl
  have hother : ∀ (l : Thief α) j, j ≠ i → Function.update s.thief i l j = s.thief j := fun l j hj =>
    Function.update_of_ne hj ..
  -- a step without an event
  have quiet : ∀ {l}, some { s with thief := Function.update s.thief i l } = some s' →
      event s (.thief i tf : Act ι α) = none → ThiefCall i h l →
      (ThiefCall i ((.thief i tf, s) :: h) (s'.thief i) ∧ s'.own = s.own ∧ ∀ j, j ≠ i → s'.thief j = s.thief j) ∧
        s'.pushed = pushes (calls.all ((.thief i tf, s) :: h)) ∧
        s'.taken = takes (calls.all ((.thief i tf, s) :: h)) := by
    intro l hs he hcall
    obtain rfl := Option.some.inj hs
    have hev : calls.events (some i) ((.thief i tf, s) :: h) = calls.events (some i) h :=
      Calls.events_later rfl fun e heq => by cases he.symm.trans heq
    refine ⟨⟨?_, rfl, hother l⟩, logs_none hc he rfl rfl⟩
    simp only [Function.update_self]
    unfold ThiefCall at hcall ⊢
    rwa [hl, hev]
  unfold Steal.thiefStep at hs
  cases hpc : s.thief i <;> rw [hpc] at hthief <;> simp only [hpc] at hs
  case idle => cases hs
  case grabHead n => exact quiet hs (by simp only [event, hpc]) hthief
  case grabLoop n ch =>
    refine quiet hs (by simp only [event, hpc]) ?_
    cases tf <;> exact hthief
  case countT n ch t => exact quiet hs (by simp only [event, hpc]) (counted_call hthief)
  case countH n ch hd => exact quiet hs (by simp only [event, hpc]) (counted_call hthief)
  case grabCopy n ch k out =>
    obtain ⟨⟨hlast, hev⟩, hk, hlen⟩ := hthief
    split at hs
    · next hlt =>
      refine quiet hs ?_ ⟨⟨hlast, hev⟩, hk, by rw [List.length_append, List.length_singleton]; omega⟩
      simp only [event, hpc, show ¬ k ≤ out.length by omega, false_and, if_false]
    · next hge =>
      split at hs
      · next heq =>
        have he : event s (.thief i tf : Act ι α) = some (some i, .take out) := by
          simp only [event, hpc, heq, show k ≤ out.length by omega, and_self, if_true]
        obtain rfl := Option.some.inj hs
        refine ⟨⟨?_, rfl, hother _⟩, logs_some hc he (List.append_nil _).symm (by simp [takes])⟩
        simp only [Function.update_self]
        have hsome : calls.events (some i) ((.thief i tf, s) :: h) = .take out :: calls.events (some i) h :=
          Calls.events_some rfl he
        exact ⟨n, hl.trans hlast, by omega, .inl (by rw [hsome, hev])⟩
      · next hne =>
        refine quiet hs ?_ ⟨hlast, hev⟩
        simp only [event, hpc, hne, and_false, if_false]
  case grabDone out => exact quiet hs (by simp only [event, hpc]) trivial

/-- A step of the run. -/
theorem CallsOk.step (hi : Inv c h s) (hc : CallsOk h s) (hs : step c s a = some s') : CallsOk ((a, s) :: h) s' := by
  -- the call of the owner begins
  have owner : ∀ o, event s a = none → (∀ i, begins (some i) a = false) → OwnCall ((a, s) :: h) o →
      some { s with own := o } = some s' → CallsOk ((a, s) :: h) s' := by
    rintro o he hb ho hs
    obtain rfl := Option.some.inj hs
    obtain ⟨hp, ht⟩ := logs_none (r := { s with own := o }) hc he rfl rfl
    exact ⟨ho, fun i => (hc.thief i).later (hb i) fun e heq => (by cases he.symm.trans heq), hp, ht⟩
  cases a with
  | push x =>
    simp only [Steal.step] at hs
    split at hs
    · exact owner (.pushFull x) rfl (fun _ => rfl) ⟨Calls.last_begins rfl, Calls.events_begins rfl⟩ hs
    · cases hs
  | pop =>
    simp only [Steal.step] at hs
    split at hs
    · exact owner .popHead rfl (fun _ => rfl) ⟨Calls.last_begins rfl, Calls.events_begins rfl⟩ hs
    · cases hs
  | own tf =>
    obtain ⟨⟨ho, hl⟩, hp, ht⟩ := hc.ownStep hi hs
    refine ⟨ho, fun i => ?_, hp, ht⟩
    rw [hl]
    exact (hc.thief i).later rfl fun e he => by cases event_own he
  | thief i tf =>
    obtain ⟨⟨hcall, ho, hl⟩, hp, ht⟩ := hc.thiefStep hs
    refine ⟨?_, fun j => ?_, hp, ht⟩
    · rw [ho]
      exact hc.own.later rfl fun e he => by cases event_thief he
    · by_cases hj : j = i
      · subst hj
        exact hcall
      · rw [hl j hj]
        exact (hc.thief j).later rfl fun e he => hj (Option.some.inj (event_thief he))
  | grab i n =>
    simp only [Steal.step] at hs
    split at hs
    · obtain rfl := Option.some.inj hs
      obtain ⟨hp, ht⟩ := logs_none (r := { s with thief := Function.update s.thief i (.grabHead n) })
        (a := .grab i n) hc rfl rfl rfl
      refine ⟨hc.own.later rfl fun e he => (by cases he), fun j => ?_, hp, ht⟩
      by_cases hj : j = i
      · subst hj
        have hb : begins (some j) (.grab j n : Act ι α) = true := decide_eq_true rfl
        simp only [Function.update_self]
        exact ⟨Calls.last_begins hb, Calls.events_begins hb⟩
      · have hb : begins (some j) (.grab i n : Act ι α) = false := decide_eq_false fun h => hj (Option.some.inj h)
        simp only [Function.update_of_ne hj]
        exact (hc.thief j).later hb fun e he => by cases he
    · cases hs

theorem callsOk_init : CallsOk [] (init : State ι α) := ⟨trivial, fun _ => trivial, rfl, rfl⟩

end steps

/-! ## Every run -/

/-- What the calls return: each value comes from the events of its own call. -/
structure Answers (h : History (State ι α) (Act ι α)) (s : State ι α) : Prop where
  /-- `TryPush` has published its item, if and only if it answers `true`. -/
  tryPush : ∀ ok, s.own = .pushDone ok →
    ∃ x, calls.last none h = some (.push x) ∧ calls.events none h = if ok then [.push x] else []
  /-- `TryPop` returns the item that its CAS has taken; with `nullptr` it has taken none. -/
  tryPop : ∀ result, s.own = .popDone result →
    calls.last none h = some .pop ∧ calls.events none h = result.toList.map fun x => .take [some x]
  /-- So does `Grab`, up to the size of its buffer; with 0 it has taken none. -/
  grab : ∀ i out, s.thief i = .grabDone out → ∃ n, calls.last (some i) h = some (.grab i n) ∧ out.length ≤ n ∧
    (calls.events (some i) h = [.take out] ∨ out = [] ∧ calls.events (some i) h = [])

theorem CallsOk.answers {h : History (State ι α) (Act ι α)} {s : State ι α} (hc : CallsOk h s) : Answers h s where
  tryPush ok hpc := by
    have ho := hc.own
    rwa [hpc] at ho
  tryPop result hpc := by
    have ho := hc.own
    rwa [hpc] at ho
  grab i out hpc := by
    have hl := hc.thief i
    rwa [hpc] at hl

variable {h : History (State ι α) (Act ι α)} {s : State ι α}

/-- In every interleaving of one owner and any number of thieves, for every capacity: at most
`Capacity` items are held, the slot the producer is about to write holds no unconsumed item, the
unconsumed items are in their slots, what the CASes of `head_` have taken is exactly the prefix of what
was pushed, every call returns what its own steps did, `TryPush` fails only if the queue was full and
`TryPop` only if it was empty at some moment of the call. -/
theorem delivers_each_item_once (r : Run (system ι α c) anyStep h s) :
    (s.q.head ≤ s.q.tail ∧ s.q.tail - s.q.head ≤ c.val) ∧
    (∀ x t, s.own = .pushSlot x t →
      ∀ p, s.q.head ≤ p → p < s.q.tail → c.toIndex p ≠ c.toIndex t) ∧
    (s.pushed.length = s.q.tail ∧
      ∀ p, s.q.head ≤ p → p < s.q.tail → s.q.buffer (c.toIndex p) = s.pushed[p]?) ∧
    (s.pushed = pushes (calls.all h) ∧ s.taken = takes (calls.all h) ∧
      s.taken = (s.pushed.take s.q.head).map some) ∧
    Answers h s ∧
    (s.own = .pushDone false → During Begins (Full c) h s) ∧
    (s.own = .popDone none → During Begins Empty h s) := by
  have hi := inv_of_run r
  have hc : CallsOk h s :=
    (r.invariant (I := fun h s => Inv c h s ∧ CallsOk h s) (fun _ hs => hs ▸ ⟨inv_init, callsOk_init⟩)
      fun _ _ _ _ hi _ hs => ⟨inv_step hi.1 hs, hi.2.step hi.1 hs⟩).2
  have ho := hi.own
  refine ⟨⟨hi.le, by have := hi.cap; omega⟩, fun x t he p hp hp' => ?_, ⟨hi.len, hi.slots⟩,
    ⟨hc.pushed, hc.taken, hi.taken⟩, hc.answers, fun he => ?_, fun he => ?_⟩
  · rw [he] at ho
    obtain ⟨rfl, h2⟩ := ho
    exact Capacity.toIndex_ne hp' (by omega)
  · rw [he] at ho; exact ho
  · rw [he] at ho; exact ho

/-- The owner pushes 7 and 8. A thief has copied the slot of 7 when the owner pops 7; its CAS fails, and it takes
8. -/
def pushPopGrab : List (Act (Fin 1) Nat) :=
  .push 7 :: List.replicate 6 (.own true) ++ .push 8 :: List.replicate 6 (.own false) ++
    .grab 0 1 :: List.replicate 4 (.thief 0 true) ++ .pop :: List.replicate 5 (.own true) ++
    List.replicate 5 (.thief 0 false)

theorem delivers_to_both : ∃ h s, Run (system (Fin 1) Nat ⟨3, by decide⟩) anyStep h s ∧
    (s.own = .popDone (some 7) ∧ s.thief 0 = .grabDone [some 8]) ∧
    (s.taken = [some 7, some 8] ∧ s.taken = takes (calls.all h)) ∧ Answers h s := by
  obtain ⟨s, ⟨h, r⟩, hp⟩ := Reach.of_exec_any (system (Fin 1) Nat ⟨3, by decide⟩) pushPopGrab
    (fun s => decide (s.own = .popDone (some 7) ∧ s.thief 0 = .grabDone [some 8]) && s.taken == [some 7, some 8])
    rfl (by decide)
  obtain ⟨hpc, htaken⟩ := (Bool.and_eq_true _ _).mp hp
  obtain ⟨-, -, -, ⟨-, hlog, -⟩, hans, -⟩ := delivers_each_item_once r
  exact ⟨h, s, r, of_decide_eq_true hpc, ⟨eq_of_beq htaken, hlog⟩, hans⟩

end Steal
