import ConcurrencyCourse.Lib.Transition
import Mathlib.Logic.Function.Basic

/-!
# Store buffers

The threads of an x86 machine share a memory. A store goes into a buffer of its thread, oldest first, and from there
into the memory at some later time; a load takes the newest store to its address from the thread's own buffer, or else
from the memory. There are no fences and no locked instructions here: a program that needs them has them as
a condition on its runs.

`refines` is the main theorem: as long as every load waits until the buffer of its thread is empty, or reads what the
thread has stored last, the machine does nothing that it could not do without buffers.
-/

namespace Tso

open Function Transition

/-- One instruction, and where the thread goes on. -/
inductive Instr (A V L : Type) where
  | load (a : A) (k : V → L)
  | store (a : A) (v : V) (l : L)
  | skip (l : L)

/-- What each thread does at each place; `none`: it has ended. -/
abbrev Code (ι A V L : Type) := ι → L → Option (Instr A V L)

/-- The machine without buffers. -/
structure Sc (ι A V L : Type) where
  mem : A → V
  loc : ι → L

structure State (ι A V L : Type) where
  mem : A → V
  /-- Oldest first. -/
  buf : ι → List (A × V)
  loc : ι → L

inductive Act (ι : Type) where
  | instr (i : ι)
  /-- The oldest store of the thread goes into the memory. -/
  | drain (i : ι)
  deriving DecidableEq

variable {ι A V L : Type} [DecidableEq ι] [DecidableEq A]

def Sc.next (s : Sc ι A V L) (i : ι) : Instr A V L → Sc ι A V L
  | .load a k => { s with loc := update s.loc i (k (s.mem a)) }
  | .store a v l => ⟨update s.mem a v, update s.loc i l⟩
  | .skip l => { s with loc := update s.loc i l }

def Sc.system (code : Code ι A V L) (mem : A → V) (loc : ι → L) : System (Sc ι A V L) ι :=
  ⟨fun s => s = ⟨mem, loc⟩, fun s i => (code i (s.loc i)).map (s.next i)⟩

/-- What thread `i` reads at the address. -/
def State.read (s : State ι A V L) (i : ι) (a : A) : V :=
  ((s.buf i).reverse.find? (·.1 = a)).elim (s.mem a) (·.2)

def State.next (s : State ι A V L) (i : ι) : Instr A V L → State ι A V L
  | .load a k => { s with loc := update s.loc i (k (s.read i a)) }
  | .store a v l => { s with buf := update s.buf i (s.buf i ++ [(a, v)]), loc := update s.loc i l }
  | .skip l => { s with loc := update s.loc i l }

def State.drain (s : State ι A V L) (i : ι) : Option (State ι A V L) :=
  match s.buf i with
  | [] => none
  | (a, v) :: b => some { s with mem := update s.mem a v, buf := update s.buf i b }

def State.act (code : Code ι A V L) (s : State ι A V L) : Act ι → Option (State ι A V L)
  | .instr i => (code i (s.loc i)).map (s.next i)
  | .drain i => s.drain i

def init (mem : A → V) (loc : ι → L) : State ι A V L := ⟨mem, fun _ => [], loc⟩

def system (code : Code ι A V L) (mem : A → V) (loc : ι → L) : System (State ι A V L) (Act ι) :=
  ⟨fun s => s = init mem loc, State.act code⟩

omit [DecidableEq ι] in
theorem read_nil {s : State ι A V L} {i : ι} {a : A} (h : s.buf i = []) : s.read i a = s.mem a := by
  rw [State.read, h]
  rfl

omit [DecidableEq ι] in
/-- A thread reads what it has stored last. -/
theorem read_last {s : State ι A V L} {i : ι} {a : A} {b : List (A × V)} {v : V} (h : s.buf i = b ++ [(a, v)]) :
    s.read i a = v := by
  rw [State.read, h, List.reverse_append, List.reverse_singleton, List.singleton_append,
    List.find?_cons_of_pos (by simp)]
  rfl

/-- What `drain` does. -/
theorem act_drain {code : Code ι A V L} {s s' : State ι A V L} {i : ι} (h : s.act code (.drain i) = some s') :
    ∃ a v b, s.buf i = (a, v) :: b ∧ s' = ⟨update s.mem a v, update s.buf i b, update s.loc i (s.loc i)⟩ := by
  simp only [State.act, State.drain] at h
  split at h
  · cases h
  · next a v b hb =>
    rw [update_eq_self]
    exact ⟨a, v, b, hb, (Option.some.inj h).symm⟩

/-! ### A thread whose stores are still in its buffer -/

/-- With the stores `b`, thread `i` comes from `l` to `l'`. On the way it has loaded only, at places of its own, what it
had stored last. -/
inductive Pending (code : Code ι A V L) (own : L → Prop) (i : ι) (l : L) : List (A × V) → L → Prop where
  | refl : Pending code own i l [] l
  | skip {b : List (A × V)} {l₁ l₂ : L} :
      Pending code own i l b l₁ → code i l₁ = some (.skip l₂) → Pending code own i l b l₂
  | store {b : List (A × V)} {l₁ l₂ : L} {a : A} {v : V} :
      Pending code own i l b l₁ → code i l₁ = some (.store a v l₂) → Pending code own i l (b ++ [(a, v)]) l₂
  | load {b : List (A × V)} {l₁ : L} {a : A} {v : V} {k : V → L} :
      Pending code own i l (b ++ [(a, v)]) l₁ → code i l₁ = some (.load a k) → own l₁ →
        Pending code own i l (b ++ [(a, v)]) (k v)

/-- Where an instruction may lead. -/
def Instr.LeadsTo : Instr A V L → L → Prop
  | .load _ k, l => ∃ v, k v = l
  | .store _ _ l', l => l' = l
  | .skip l', l => l' = l

def Instr.isLoad : Instr A V L → Bool
  | .load .. => true
  | _ => false

section pending

variable {code : Code ι A V L} {own : L → Prop} {i : ι} {l l' : L} {b rest : List (A × V)} {a : A} {v : V}
  {mem₀ : A → V} {loc₀ : ι → L} {s : Sc ι A V L}

omit [DecidableEq ι] [DecidableEq A] in
/-- Where only loads lead to, the thread has been since its oldest store that is on the way. -/
theorem Pending.since {inside : L → Prop}
    (hin : ∀ l l' x, code i l = some x → (x.isLoad → own l) → x.LeadsTo l' → inside l' → inside l)
    (p : Pending code own i l b l') (h : inside l') : inside l := by
  induction p with
  | refl => exact h
  | skip _ hc ih => exact ih (hin _ _ _ hc nofun rfl h)
  | store _ hc ih => exact ih (hin _ _ _ hc nofun rfl h)
  | load _ hc hown ih => exact ih (hin _ _ _ hc (fun _ => hown) ⟨_, rfl⟩ h)

/-- Without buffers, thread `i` goes where it has gone without a store. -/
theorem Pending.run_nil (p : Pending code own i (s.loc i) b l') (hb : b = [])
    (r : Reach (Sc.system code mem₀ loc₀) anyStep s) :
    Reach (Sc.system code mem₀ loc₀) anyStep { s with loc := update s.loc i l' } := by
  induction p with
  | refl => rwa [update_eq_self]
  | @skip b l₁ l₂ _ hc ih =>
    refine (ih hb).step (a := i) trivial ?_
    change (code i (update s.loc i l₁ i)).map _ = _
    rw [update_self, hc, Option.map_some, Sc.next, update_idem]
  | store _ _ _ => exact absurd hb (List.append_ne_nil_of_right_ne_nil _ (List.cons_ne_nil _ _))
  | load _ _ _ _ => exact absurd hb (List.append_ne_nil_of_right_ne_nil _ (List.cons_ne_nil _ _))

/-- When the oldest store goes into the memory, thread `i` without buffers catches up with it. -/
theorem Pending.run_cons (p : Pending code own i (s.loc i) b l') (hb : b = (a, v) :: rest)
    (r : Reach (Sc.system code mem₀ loc₀) anyStep s) :
    ∃ l₁, Reach (Sc.system code mem₀ loc₀) anyStep ⟨update s.mem a v, update s.loc i l₁⟩ ∧
      Pending code own i l₁ rest l' := by
  induction p generalizing rest with
  | refl => cases hb
  | skip _ hc ih =>
    obtain ⟨l₁, hr, hp⟩ := ih hb
    exact ⟨l₁, hr, hp.skip hc⟩
  | @store b l₂ l₃ a' v' p hc ih =>
    cases b with
    | nil =>
      -- this is the store
      obtain ⟨heq, rfl⟩ := List.cons.inj hb
      obtain ⟨rfl, rfl⟩ := Prod.mk.inj heq
      refine ⟨l₃, (p.run_nil rfl r).step (a := i) trivial ?_, .refl⟩
      change (code i (update s.loc i l₂ i)).map _ = _
      rw [update_self, hc, Option.map_some, Sc.next, update_idem]
    | cons first b =>
      obtain ⟨rfl, rfl⟩ := List.cons.inj hb
      obtain ⟨l₁, hr, hp⟩ := ih rfl
      exact ⟨l₁, hr, hp.store hc⟩
  | @load b l₂ a' v' k p hc hown ih =>
    cases b with
    | nil =>
      -- the load follows the store at once
      obtain ⟨l₁, hr, hp⟩ := ih hb
      obtain ⟨heq, rfl⟩ := List.cons.inj hb
      obtain ⟨rfl, rfl⟩ := Prod.mk.inj heq
      have hp' : Pending code own i (update s.loc i l₁ i) [] l₂ := by rwa [update_self]
      have hr' := hp'.run_nil rfl hr
      refine ⟨k v', hr'.step (a := i) trivial ?_, .refl⟩
      change (code i (update (update s.loc i l₁) i l₂ i)).map _ = _
      rw [update_self, hc, Option.map_some, Sc.next]
      simp only [update_idem, update_self]
    | cons first b =>
      obtain ⟨rfl, rfl⟩ := List.cons.inj hb
      obtain ⟨l₁, hr, hp⟩ := ih rfl
      exact ⟨l₁, hr, hp.load hc hown⟩

end pending

/-! ### The machine without buffers follows -/

/-- The memory is the same, and each thread is behind by the stores in its buffer. -/
structure Behind (code : Code ι A V L) (own : L → Prop) (s' : Sc ι A V L) (s : State ι A V L) : Prop where
  mem : s'.mem = s.mem
  pending : ∀ i, Pending code own i (s'.loc i) (s.buf i) (s.loc i)

/-- A load waits until the buffer is empty, or reads at a place of its own what the thread has stored last. -/
def Settled (code : Code ι A V L) (own : L → Prop) (s : State ι A V L) : Act ι → Prop
  | .instr i => ∀ a k, code i (s.loc i) = some (.load a k) →
      s.buf i = [] ∨ own (s.loc i) ∧ ∃ b v, s.buf i = b ++ [(a, v)]
  | .drain _ => True

section refines

variable {code : Code ι A V L} {own : L → Prop} {i : ι} {mem₀ : A → V} {loc₀ : ι → L} {s s₁ : State ι A V L}
  {s' : Sc ι A V L} {a : Act ι}

omit [DecidableEq A] in
/-- Thread `i` moves, in the one machine or in both. -/
theorem Behind.moves (hb : Behind code own s' s) (mem : A → V) {b : List (A × V)} {l l' : L}
    (hp : Pending code own i l' b l) :
    Behind code own ⟨mem, update s'.loc i l'⟩ ⟨mem, update s.buf i b, update s.loc i l⟩ := by
  refine ⟨rfl, fun j => ?_⟩
  rcases eq_or_ne j i with rfl | hne
  · simpa only [update_self] using hp
  · simpa only [update_of_ne hne] using hb.pending j

theorem Behind.step (hb : Behind code own s' s) (r : Reach (Sc.system code mem₀ loc₀) anyStep s')
    (hok : Settled code own s a) (hs : s.act code a = some s₁) :
    ∃ s₁', Reach (Sc.system code mem₀ loc₀) anyStep s₁' ∧ Behind code own s₁' s₁ := by
  have hstay : ∀ i, (⟨s.mem, update s'.loc i (s'.loc i)⟩ : Sc ι A V L) = s' := fun i => by
    rw [update_eq_self, ← hb.mem]
  cases a with
  | instr i =>
    obtain ⟨x, hx, rfl⟩ := Option.map_eq_some_iff.1 hs
    have hp := hb.pending i
    cases x with
    | load a k =>
      rcases hok a k hx with hnil | ⟨hown, b, v, hlast⟩
      · -- nothing is on the way: the thread catches up, and loads
        have hr : Reach (Sc.system code mem₀ loc₀) anyStep ⟨s.mem, update s'.loc i (k (s.mem a))⟩ := by
          refine (hp.run_nil hnil r).step (a := i) trivial ?_
          change (code i (update s'.loc i (s.loc i) i)).map _ = _
          rw [update_self, hx, Option.map_some, Sc.next, update_idem, hb.mem]
        refine ⟨_, hr, ?_⟩
        have hmoves := hb.moves (i := i) s.mem (b := s.buf i) (hnil ▸ Pending.refl (l := k (s.mem a)))
        rw [update_eq_self, ← read_nil hnil] at hmoves
        rw [← read_nil hnil]
        exact hmoves
      · refine ⟨s', r, ?_⟩
        have hload : Pending code own i (s'.loc i) (s.buf i) (k v) := by
          rw [hlast] at hp ⊢
          exact hp.load hx hown
        have hmoves := hb.moves s.mem hload
        rwa [hstay, update_eq_self, ← read_last hlast] at hmoves
    | store a v l =>
      refine ⟨s', r, ?_⟩
      have hmoves := hb.moves s.mem (hp.store hx)
      rwa [hstay] at hmoves
    | skip l =>
      refine ⟨s', r, ?_⟩
      have hmoves := hb.moves s.mem (hp.skip hx)
      rwa [hstay, update_eq_self] at hmoves
  | drain i =>
    obtain ⟨a, v, b, hbuf, rfl⟩ := act_drain hs
    obtain ⟨l₁, hr, hp⟩ := (hb.pending i).run_cons hbuf r
    refine ⟨_, hr, ?_⟩
    rw [hb.mem]
    exact hb.moves _ hp

/-- A run of the machine, all of whose loads are settled, is one of the machine without buffers, in which each thread is
behind by the stores in its buffer. -/
theorem refines (r : Reach (system code mem₀ loc₀) (Settled code own) s) :
    ∃ s', Reach (Sc.system code mem₀ loc₀) anyStep s' ∧ Behind code own s' s := by
  refine r.invariant (I := fun s => ∃ s', Reach (Sc.system code mem₀ loc₀) anyStep s' ∧ Behind code own s' s) ?_ ?_
  · rintro _ rfl
    exact ⟨⟨mem₀, loc₀⟩, .init rfl, rfl, fun _ => .refl⟩
  · rintro s a s₁ ⟨s', hr, hb⟩ hok hs
    exact hb.step hr hok hs

/-- What excludes without buffers excludes with them, where only loads lead inside. -/
theorem excludes_of_sc {inside : ι → L → Prop}
    (hin : ∀ i l l' x, code i l = some x → (x.isLoad → own l) → x.LeadsTo l' → inside i l' → inside i l)
    (hsc : ∀ s', Reach (Sc.system code mem₀ loc₀) anyStep s' → ∀ i j, inside i (s'.loc i) → inside j (s'.loc j) → i = j)
    (r : Reach (system code mem₀ loc₀) (Settled code own) s) {j : ι} (hi : inside i (s.loc i))
    (hj : inside j (s.loc j)) : i = j := by
  obtain ⟨s', hr, hb⟩ := refines r
  exact hsc s' hr i j ((hb.pending i).since (hin i) hi) ((hb.pending j).since (hin j) hj)

end refines

end Tso
