import ConcurrencyCourse.Lib.Transition
import Mathlib.Data.List.Perm.Basic

/-!
# Calls, and the step at which a call takes effect

A call of a thread begins with an action, and some of the thread's steps are events of an abstract object: the step
at which an operation takes effect. `Calls` names the two. `events` are those of the current call, `all` those of the
whole run.

When every event does to the abstraction of the state what the object allows, and every other step leaves it alone,
the events of a run are a run of the object (`Calls.refines`).

`Lifo.spec` is such an object, a stack: what was pushed is what was popped, and what is there (`Lifo.perm`).
`Closable.spec` is another, a queue that can be closed: what was put is what was taken, in that order, and what is
there (`Closable.fifo`).
-/

namespace Transition

universe u v w x y

/-- A call begins with an action; an event belongs to a thread. -/
structure Calls (σ : Type u) (α : Type v) (ι : Type w) (ε : Type x) where
  begins : ι → α → Bool
  event : σ → α → Option (ι × ε)

namespace Calls

variable {σ : Type u} {α : Type v} {ι : Type w} {ε : Type x} (C : Calls σ α ι ε)

/-- The call that the thread has begun last. -/
def last (t : ι) (h : History σ α) : Option α := (h.map Prod.fst).find? (C.begins t)

/-- The events of a run, newest first. -/
def all (h : History σ α) : List ε := h.filterMap fun e => (C.event e.2 e.1).map Prod.snd

/-- The events of the thread in its current call, newest first. -/
def events [DecidableEq ι] (t : ι) : History σ α → List ε
  | [] => []
  | (a, s) :: h =>
    if C.begins t a then []
    else match C.event s a with
      | some (i, e) => if i = t then e :: events t h else events t h
      | none => events t h

variable {C} {h : History σ α} {s : σ} {a : α} {t : ι} {e : ε}

theorem last_later (ha : C.begins t a = false) : C.last t ((a, s) :: h) = C.last t h := by
  simp [last, ha]

theorem last_begins (ha : C.begins t a = true) : C.last t ((a, s) :: h) = some a := by
  simp [last, ha]

theorem all_none (he : C.event s a = none) : C.all ((a, s) :: h) = C.all h := by
  simp [all, he]

theorem all_some (he : C.event s a = some (t, e)) : C.all ((a, s) :: h) = e :: C.all h := by
  simp [all, he]

variable [DecidableEq ι]

theorem events_begins (ha : C.begins t a = true) : C.events t ((a, s) :: h) = [] := if_pos ha

theorem events_some (ha : C.begins t a = false) (he : C.event s a = some (t, e)) :
    C.events t ((a, s) :: h) = e :: C.events t h := by
  simp [events, ha, he]

/-- A step of another thread, or without an event. -/
theorem events_later (ha : C.begins t a = false) (he : ∀ e, C.event s a ≠ some (t, e)) :
    C.events t ((a, s) :: h) = C.events t h := by
  rw [events, if_neg (by rw [ha]; nofun)]
  split
  · next i e heq =>
    refine if_neg ?_
    rintro rfl
    exact he e heq
  · rfl

end Calls

/-- A run of an abstract object, the newest event first. -/
inductive Path {ε : Type x} {β : Type y} (spec : β → ε → β → Prop) (b₀ : β) : List ε → β → Prop where
  | nil : Path spec b₀ [] b₀
  | cons {es : List ε} {e : ε} {b b' : β} : Path spec b₀ es b → spec b e b' → Path spec b₀ (e :: es) b'

/-- What a step is to do to the abstraction. -/
def Applies {ι : Type w} {ε : Type x} {β : Type y} (spec : β → ε → β → Prop) : Option (ι × ε) → β → β → Prop
  | none, b, b' => b' = b
  | some (_, e), b, b' => spec b e b'

theorem Calls.refines {σ : Type u} {α : Type v} {ι : Type w} {ε : Type x} {β : Type y} (C : Calls σ α ι ε)
    {M : System σ α} {ok : σ → α → Prop} {spec : β → ε → β → Prop} (abs : σ → β) {b₀ : β}
    (h0 : ∀ s, M.init s → abs s = b₀)
    (hs : ∀ h s a s', Run M ok h s → ok s a → M.step s a = some s' → Applies spec (C.event s a) (abs s) (abs s'))
    {h : History σ α} {s : σ} (r : Run M ok h s) : Path spec b₀ (C.all h) (abs s) := by
  induction r with
  | init hi =>
    rw [h0 _ hi]
    exact .nil
  | @step h s s' a r hok hstep ih =>
    have happ := hs h s a s' r hok hstep
    cases he : C.event s a with
    | none =>
      rw [he] at happ
      rw [C.all_none he, show abs s' = abs s from happ]
      exact ih
    | some p =>
      obtain ⟨t, e⟩ := p
      rw [he] at happ
      rw [C.all_some he]
      exact .cons ih happ

/-! ### A stack -/

namespace Lifo

variable {X : Type u}

inductive Event (X : Type u) where
  | push (x : X)
  | pop (x : X)
  /-- There was nothing to pop. -/
  | empty
  deriving DecidableEq

/-- The top is the first one. -/
def spec (l : List X) : Event X → List X → Prop
  | .push x, l' => l' = x :: l
  | .pop x, l' => l = x :: l'
  | .empty, l' => l = [] ∧ l' = []

def pushed (es : List (Event X)) : List X := es.filterMap fun | .push x => some x | _ => none
def popped (es : List (Event X)) : List X := es.filterMap fun | .pop x => some x | _ => none

theorem perm {es : List (Event X)} {l : List X} (p : Path spec [] es l) : (pushed es).Perm (popped es ++ l) := by
  induction p with
  | nil => exact .nil
  | @cons es e l l' p he ih =>
    cases e with
    | push x =>
      obtain rfl : l' = x :: l := he
      exact (ih.cons x).trans List.perm_middle.symm
    | pop x =>
      obtain rfl : l = x :: l' := he
      exact ih.trans List.perm_middle
    | empty =>
      obtain ⟨rfl, rfl⟩ := he
      exact ih

end Lifo

/-! ### A queue that can be closed -/

namespace Closable

variable {X : Type u}

inductive Event (X : Type u) where
  /-- What was answered. -/
  | put (x : X) (ok : Bool)
  | take (x : X)
  /-- The queue was closed, and there was nothing to take. -/
  | drained
  | close
  deriving DecidableEq

structure Contents (X : Type u) where
  isOpened : Bool
  items : List X

def spec (b : Contents X) : Event X → Contents X → Prop
  | .put x true, b' => b.isOpened = true ∧ b' = ⟨true, b.items ++ [x]⟩
  | .put _ false, b' => b.isOpened = false ∧ b' = b
  | .take x, b' => b.items = x :: b'.items ∧ b'.isOpened = b.isOpened
  | .drained, b' => b = ⟨false, []⟩ ∧ b' = b
  | .close, b' => b' = ⟨false, b.items⟩

/-- What was accepted, in order. -/
def accepted (es : List (Event X)) : List X := es.reverse.filterMap fun | .put x true => some x | _ => none

/-- What was taken, in order. -/
def taken (es : List (Event X)) : List X := es.reverse.filterMap fun | .take x => some x | _ => none

theorem fifo {es : List (Event X)} {b : Contents X} (p : Path spec ⟨true, []⟩ es b) :
    accepted es = taken es ++ b.items := by
  induction p with
  | nil => rfl
  | @cons es e b b' p he ih =>
    have hsnoc : ∀ f : Event X → Option X,
        (e :: es).reverse.filterMap f = es.reverse.filterMap f ++ (f e).toList := by
      intro f
      rw [List.reverse_cons, List.filterMap_append]
      cases hf : f e <;> simp [hf]
    unfold accepted taken at ih ⊢
    rw [hsnoc, hsnoc, ih]
    cases e with
    | put x ok =>
      cases ok with
      | true =>
        obtain ⟨-, rfl⟩ := he
        simp
      | false =>
        obtain ⟨-, rfl⟩ := he
        simp
    | take x =>
      obtain ⟨hb, -⟩ := he
      simp [hb]
    | drained =>
      obtain ⟨-, rfl⟩ := he
      simp
    | close =>
      obtain rfl := he
      simp

/-- Once a take has found the queue closed and empty, all that was accepted has been taken. -/
theorem drained {es : List (Event X)} {b : Contents X} (p : Path spec ⟨true, []⟩ es b) (h : .drained ∈ es) :
    b = ⟨false, []⟩ := by
  induction p with
  | nil => cases h
  | @cons es e b b' p he ih =>
    rcases List.mem_cons.1 h with rfl | h
    · obtain ⟨hb, rfl⟩ := he
      exact hb
    · obtain rfl := ih h
      cases e with
      | put x ok =>
        cases ok with
        | true => cases he.1
        | false => exact he.2
      | take x => cases he.1
      | drained => exact he.2
      | close => exact he

end Closable

end Transition
