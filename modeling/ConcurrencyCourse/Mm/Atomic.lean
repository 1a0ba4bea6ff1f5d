import ConcurrencyCourse.Lib.Tso

/-!
# `Atomic` (tasks/mm/atomic) and `SpinLock` (tests/stress/spinlock.cpp)

`Atomic` is written in x86 assembler: every load, store and exchange is made of plain `movq`, whatever the order that is
asked for (atomic_ops.S). The threads run on the machine with store buffers of `Tso`.

| here | there |
| --- | --- |
| `atomicLoadRelaxed` and so on | atomic_ops.S; `AtomicExchangeSeqCst` is two instructions |
| `Atomic.load`, `Atomic.store` | atomic.cpp; an order that makes no sense for the call is UB, and does nothing here |
| `SpinLock.code` | `SpinLock`, with `inside` between `Lock` and `Unlock` |

`SpinLock` needs that an exchange is one step (`SpinLock.Whole`), which is what atomic_ops.hpp promises of it.
-/

namespace Mm

open Function Transition Tso

/-- `Int64`, `size_t`. -/
abbrev Word := BitVec 64

section atomic

variable {A L : Type}

inductive MemoryOrder where
  | relaxed
  | release
  | acquire
  | seqCst
  deriving DecidableEq

def atomicLoadRelaxed (cell : A) (k : Word → L) : Instr A Word L := .load cell k

def atomicLoadAcquire (cell : A) (k : Word → L) : Instr A Word L := .load cell k

def atomicLoadSeqCst (cell : A) (k : Word → L) : Instr A Word L := .load cell k

def atomicStoreRelaxed (cell : A) (value : Word) (l : L) : Instr A Word L := .store cell value l

def atomicStoreRelease (cell : A) (value : Word) (l : L) : Instr A Word L := .store cell value l

def atomicStoreSeqCst (cell : A) (value : Word) (l : L) : Instr A Word L := .store cell value l

/-- The value goes to `k`. -/
def Atomic.load (mo : MemoryOrder) (cell : A) (k : Word → L) : Instr A Word L :=
  match mo with
  | .relaxed => atomicLoadRelaxed cell k
  | .acquire => atomicLoadAcquire cell k
  | .seqCst => atomicLoadSeqCst cell k
  | .release => .skip (k 0)

def Atomic.store (mo : MemoryOrder) (cell : A) (value : Word) (l : L) : Instr A Word L :=
  match mo with
  | .relaxed => atomicStoreRelaxed cell value l
  | .release => atomicStoreRelease cell value l
  | .seqCst => atomicStoreSeqCst cell value l
  | .acquire => .skip l

/-- The first half of `AtomicExchangeSeqCst`; the value goes to `k`. -/
def atomicExchangeLoad (cell : A) (k : Word → L) : Instr A Word L := .load cell k

/-- The second half. -/
def atomicExchangeStore (cell : A) (newValue : Word) (l : L) : Instr A Word L := .store cell newValue l

end atomic

namespace SpinLock

inductive Pc where
  | idle
  -- `Exchange`
  | load
  | store (old : Word)
  -- between `Lock` and `Unlock`
  | inside
  deriving DecidableEq

/-- There is one cell, `locked_`. -/
def code (ι : Type) (_ : ι) : Pc → Option (Instr Unit Word Pc)
  | .idle => some (.skip .load)
  | .load => some (atomicExchangeLoad () .store)
  | .store old => some (atomicExchangeStore () 1 (if old = 1 then .load else .inside))
  | .inside => some (Atomic.store .release () 0 .idle)

def machine (ι : Type) [DecidableEq ι] : System (State ι Unit Word Pc) (Act ι) :=
  system (code ι) (fun _ => 0) fun _ => .idle

variable {ι : Type}

/-- An exchange waits until the thread's stores are in the memory, and nothing else happens until its own is. -/
structure Whole (s : State ι Unit Word Pc) (a : Act ι) : Prop where
  load : ∀ i, a = .instr i → s.loc i = .load → s.buf i = []
  store : ∀ i old, s.loc i = .store old → a = .instr i
  drain : ∀ i, s.buf i = [((), 1)] → a = .drain i

/-- From the load that finds the lock free until the 0 is in the memory. -/
def Holds (l : Pc) (b : List (Unit × Word)) : Prop := (∃ old, l = .store old ∧ old ≠ 1) ∨ l = .inside ∨ b = [((), 0)]

structure Inv (s : State ι Unit Word Pc) : Prop where
  bufs : ∀ i, s.buf i = [] ∨ s.buf i = [((), 0)] ∧ s.loc i ≠ .inside ∨ s.buf i = [((), 1)]
  /-- What the exchange has loaded is still there. -/
  loaded : ∀ i old, s.loc i = .store old → s.buf i = [] ∧ s.mem () = old
  held : ∀ i, Holds (s.loc i) (s.buf i) → s.mem () = 1 ∨ (∃ old, s.loc i = .store old) ∨ s.buf i = [((), 1)]
  unique : ∀ i j, Holds (s.loc i) (s.buf i) → Holds (s.loc j) (s.buf j) → i = j

theorem inv_init : Inv (init (fun _ => 0) fun _ => .idle : State ι Unit Word Pc) := by
  have hnot : ¬ Holds .idle [] := by rintro (⟨_, ⟨⟩, _⟩ | ⟨⟨⟩⟩ | ⟨⟨⟩⟩)
  exact ⟨fun _ => .inl rfl, nofun, fun _ h => absurd h hnot, fun _ _ h => absurd h hnot⟩

variable [DecidableEq ι] {s s' : State ι Unit Word Pc} {i : ι} {a : Act ι}

omit [DecidableEq ι] in
/-- While thread `i` acts, the others are not inside of an exchange. -/
theorem Whole.held (hw : Whole s a) (hi : Inv s) (ha : a = .instr i ∨ a = .drain i) {j : ι} (hj : j ≠ i) :
    (∀ old, s.loc j ≠ .store old) ∧ (Holds (s.loc j) (s.buf j) → s.mem () = 1) := by
  have hstore : ∀ old, s.loc j ≠ .store old := by
    rintro old h
    rcases ha with rfl | rfl
    · exact hj (Act.instr.inj (hw.store j old h)).symm
    · cases hw.store j old h
  refine ⟨hstore, fun h => ?_⟩
  rcases hi.held j h with h | ⟨old, h⟩ | h
  · exact h
  · exact absurd h (hstore old)
  · rcases ha with rfl | rfl
    · cases hw.drain j h
    · exact absurd (Act.drain.inj (hw.drain j h)).symm hj

/-- Thread `i` moves. -/
theorem Inv.move (hi : Inv s) (hw : Whole s a) (ha : a = .instr i ∨ a = .drain i) {mem : Unit → Word} {l : Pc}
    {b : List (Unit × Word)} (hb : b = [] ∨ b = [((), 0)] ∧ l ≠ .inside ∨ b = [((), 1)])
    (hl : ∀ old, l = .store old → b = [] ∧ mem () = old)
    (hheld : Holds l b → mem () = 1 ∨ (∃ old, l = .store old) ∨ b = [((), 1)])
    (hother : ∀ j, j ≠ i → Holds (s.loc j) (s.buf j) → s.mem () = 1 → mem () = 1 ∧ ¬ Holds l b) :
    Inv ⟨mem, update s.buf i b, update s.loc i l⟩ := by
  have hothers : ∀ j, j ≠ i → Holds (s.loc j) (s.buf j) → mem () = 1 ∧ ¬ Holds l b := fun j hj h =>
    hother j hj h ((hw.held hi ha hj).2 h)
  refine ⟨fun j => ?_, fun j old h => ?_, fun j h => ?_, fun j k hj hk => ?_⟩
  · rcases eq_or_ne j i with rfl | hne
    · simpa only [update_self] using hb
    · simpa only [update_of_ne hne] using hi.bufs j
  · rcases eq_or_ne j i with rfl | hne
    · simp only [update_self] at h ⊢
      exact hl old h
    · simp only [update_of_ne hne] at h
      exact absurd h ((hw.held hi ha hne).1 old)
  · rcases eq_or_ne j i with rfl | hne
    · simp only [update_self] at h ⊢
      exact hheld h
    · simp only [update_of_ne hne] at h
      exact .inl (hothers j hne h).1
  · by_contra hne
    by_cases hji : j = i
    · subst hji
      simp only [update_self, update_of_ne (Ne.symm hne)] at hj hk
      exact (hothers k (Ne.symm hne) hk).2 hj
    · by_cases hki : k = i
      · subst hki
        simp only [update_self, update_of_ne hji] at hj hk
        exact (hothers j hji hj).2 hk
      · simp only [update_of_ne hji, update_of_ne hki] at hj hk
        exact hne (hi.unique j k hj hk)

omit [DecidableEq ι] in
/-- Whoever comes to hold the lock is alone. -/
theorem Inv.not_holds (hi : Inv s) {l : Pc} {b : List (Unit × Word)} (h : Holds l b → Holds (s.loc i) (s.buf i)) {j : ι}
    (hj : j ≠ i) (hheld : Holds (s.loc j) (s.buf j)) : ¬ Holds l b := fun hh => hj (hi.unique j i hheld (h hh))

theorem Inv.step (hi : Inv s) (hw : Whole s a) (hs : s.act (code ι) a = some s') : Inv s' := by
  cases a with
  | instr i =>
    obtain ⟨x, hx, rfl⟩ := Option.map_eq_some_iff.1 hs
    have hnot : s.buf i ≠ [((), 1)] := fun h => by cases hw.drain i h
    cases hl : s.loc i with
    | idle =>
      rw [hl] at hx
      obtain rfl := Option.some.inj hx
      have hholds : Holds .load (s.buf i) → Holds (s.loc i) (s.buf i) := by
        rintro (⟨_, ⟨⟩, _⟩ | ⟨⟨⟩⟩ | h)
        exact .inr (.inr h)
      have hmove : Inv ⟨s.mem, update s.buf i (s.buf i), update s.loc i .load⟩ := hi.move hw (.inl rfl)
        ((hi.bufs i).imp_right (.imp_left fun h => ⟨h.1, nofun⟩)) nofun
        (fun h => (hi.held i (hholds h)).imp_right (.imp_left fun ⟨_, h⟩ => by rw [hl] at h; cases h))
        (fun j hj h h1 => ⟨h1, hi.not_holds hholds hj h⟩)
      rwa [update_eq_self] at hmove
    | load =>
      rw [hl] at hx
      obtain rfl := Option.some.inj hx
      have hnil := hw.load i rfl hl
      have hmove : Inv ⟨s.mem, update s.buf i (s.buf i), update s.loc i (.store (s.mem ()))⟩ :=
        hi.move hw (.inl rfl) (.inl hnil) (fun old h => ⟨hnil, Pc.store.inj h⟩) (fun _ => .inr (.inl ⟨_, rfl⟩))
          (fun j _ _ h1 => ⟨h1, ?_⟩)
      · rw [update_eq_self, ← read_nil hnil] at hmove
        exact hmove
      · rw [hnil]
        rintro (⟨_, h, h2⟩ | ⟨⟨⟩⟩ | ⟨⟨⟩⟩)
        exact h2 (Pc.store.inj h ▸ h1)
    | store old =>
      rw [hl] at hx
      obtain rfl := Option.some.inj hx
      obtain ⟨hnil, hmem⟩ := hi.loaded i old hl
      refine hi.move hw (.inl rfl) (.inr (.inr (by rw [hnil]; rfl))) (fun _ h => ?_)
        (fun _ => .inr (.inr (by rw [hnil]; rfl))) (fun j _ _ h1 => ⟨h1, ?_⟩)
      · split at h <;> cases h
      · -- the lock was taken
        rw [if_pos (hmem.symm.trans h1), hnil]
        rintro (⟨_, ⟨⟩, _⟩ | ⟨⟨⟩⟩ | ⟨⟨⟩⟩)
    | inside =>
      rw [hl] at hx
      obtain rfl := Option.some.inj hx
      have hholds : Holds (s.loc i) (s.buf i) := .inr (.inl hl)
      have hnil : s.buf i = [] := by
        rcases hi.bufs i with h | ⟨-, h⟩ | h
        · exact h
        · exact absurd hl h
        · exact absurd h hnot
      refine hi.move hw (.inl rfl) (.inr (.inl ⟨by rw [hnil]; rfl, nofun⟩)) nofun (fun _ => .inl ?_)
        (fun j hj h _ => absurd (hi.unique j i h hholds) hj)
      rcases hi.held i hholds with h | ⟨old, h⟩ | h
      · exact h
      · rw [hl] at h
        cases h
      · exact absurd h hnot
  | drain i =>
    obtain ⟨⟨⟩, v, b, hb, rfl⟩ := act_drain hs
    have hnot : ∀ old, s.loc i ≠ .store old := by
      intro old h
      rw [(hi.loaded i old h).1] at hb
      cases hb
    have hout : Holds (s.loc i) [] → s.loc i = .inside := by
      rintro (⟨old, h, -⟩ | h | ⟨⟨⟩⟩)
      · exact absurd h (hnot old)
      · exact h
    rcases hi.bufs i with h | ⟨h, hne⟩ | h <;> rw [hb] at h
    · cases h
    · -- the lock is free now
      obtain ⟨h0, rfl⟩ := List.cons.inj h
      obtain rfl := (Prod.mk.inj h0).2
      exact hi.move hw (.inr rfl) (.inl rfl) (fun old h => absurd h (hnot old)) (fun h => absurd (hout h) hne)
        (fun j hj h _ => absurd (hi.unique j i h (.inr (.inr hb))) hj)
    · obtain ⟨h1, rfl⟩ := List.cons.inj h
      obtain rfl := (Prod.mk.inj h1).2
      exact hi.move hw (.inr rfl) (.inl rfl) (fun old h => absurd h (hnot old)) (fun _ => .inl (update_self ..))
        (fun j hj h _ => ⟨update_self .., hi.not_holds (fun h => .inr (.inl (hout h))) hj h⟩)

theorem inv (r : Reach (machine ι) Whole s) : Inv s := by
  refine r.invariant (I := Inv) ?_ ?_
  · rintro _ rfl
    exact inv_init
  · intro s a s' hi hw hs
    exact hi.step hw hs

/-! ### Halves of them do not -/

theorem reach_instr (r : Reach (machine ι) anyStep s) {x : Instr Unit Word Pc} (hx : code ι i (s.loc i) = some x) :
    Reach (machine ι) anyStep (s.next i x) := by
  refine r.step (a := .instr i) trivial ?_
  change (code ι i (s.loc i)).map (s.next i) = _
  rw [hx, Option.map_some]

/-- Any threads, one after the other, find the lock free. -/
theorem all_load {ts : List ι} (hnd : ts.Nodup) : ∃ s, Reach (machine ι) anyStep s ∧ s.mem () = 0 ∧
    (∀ i, s.buf i = []) ∧ (∀ i ∈ ts, s.loc i = .store 0) ∧ ∀ i, i ∉ ts → s.loc i = .idle := by
  induction ts with
  | nil => exact ⟨_, .init rfl, rfl, fun _ => rfl, nofun, fun _ _ => rfl⟩
  | cons t ts ih =>
    obtain ⟨ht, hnd⟩ := List.nodup_cons.1 hnd
    obtain ⟨s, hr, hmem, hbuf, hloc, hidle⟩ := ih hnd
    have hr₁ := reach_instr (i := t) (x := .skip .load) hr (by rw [hidle t ht]; rfl)
    have hr₂ := reach_instr (i := t) (x := atomicExchangeLoad () .store) hr₁ (by
      rw [show (s.next t (.skip .load)).loc t = .load from update_self ..]
      rfl)
    have hread : (s.next t (.skip .load)).read t () = 0 := (read_nil (hbuf t)).trans hmem
    refine ⟨_, hr₂, hmem, hbuf, fun i hi => ?_, fun i hi => ?_⟩
    · rcases eq_or_ne i t with rfl | hne
      · exact (update_self ..).trans (congrArg Pc.store hread)
      · exact (update_of_ne hne ..).trans ((update_of_ne hne ..).trans
          (hloc i ((List.mem_cons.1 hi).resolve_left hne)))
    · have hne : i ≠ t := fun h => hi (h ▸ List.mem_cons_self)
      exact (update_of_ne hne ..).trans ((update_of_ne hne ..).trans
        (hidle i fun h => hi (List.mem_cons_of_mem _ h)))

/-- And then all of them enter. -/
theorem all_enter {ts : List ι} (hr : Reach (machine ι) anyStep s) (hloc : ∀ i ∈ ts, s.loc i = .store 0) :
    ∃ s', Reach (machine ι) anyStep s' ∧ (∀ i ∈ ts, s'.loc i = .inside) ∧ ∀ i, i ∉ ts → s'.loc i = s.loc i := by
  induction ts with
  | nil => exact ⟨s, hr, nofun, fun _ _ => rfl⟩
  | cons t ts ih =>
    obtain ⟨s', hr', hin, hout⟩ := ih fun i hi => hloc i (List.mem_cons_of_mem _ hi)
    by_cases ht : t ∈ ts
    · refine ⟨s', hr', fun i hi => ?_, fun i hi => hout i fun h => hi (List.mem_cons_of_mem _ h)⟩
      rcases List.mem_cons.1 hi with rfl | hi
      · exact hin i ht
      · exact hin i hi
    · have hr₁ := reach_instr (i := t) (x := atomicExchangeStore () 1 .inside) hr' (by
        rw [hout t ht, hloc t List.mem_cons_self]
        rfl)
      refine ⟨_, hr₁, fun i hi => ?_, fun i hi => ?_⟩
      · rcases eq_or_ne i t with rfl | hne
        · exact update_self ..
        · exact (update_of_ne hne ..).trans (hin i ((List.mem_cons.1 hi).resolve_left hne))
      · have hne : i ≠ t := fun h => hi (h ▸ List.mem_cons_self)
        exact (update_of_ne hne ..).trans (hout i fun h => hi (List.mem_cons_of_mem _ h))

/-- If exchanges are whole, at most one thread is inside at a time. As they are, any number of threads may be. -/
theorem excludes_when_whole :
    (∀ s, Reach (machine ι) Whole s → ∀ i j, s.loc i = .inside → s.loc j = .inside → i = j) ∧
    ∀ ts : List ι, ts.Nodup → ∃ s, Reach (machine ι) anyStep s ∧ ∀ i ∈ ts, s.loc i = .inside := by
  constructor
  · intro s r i j hi hj
    exact (inv r).unique i j (.inr (.inl hi)) (.inr (.inl hj))
  · intro ts hnd
    obtain ⟨s, hr, -, -, hloc, -⟩ := all_load hnd
    obtain ⟨s', hr', hin, -⟩ := all_enter hr hloc
    exact ⟨s', hr', hin⟩

end SpinLock

end Mm
