import ConcurrencyCourse.Mm.Atomic

/-!
# `PetersonMutex` (tasks/mm/atomic/tests/stress/peterson_mutex.cpp)

| here | there |
| --- | --- |
| `code` | `Lock` (26-33), `Unlock` (35-37), by the thread with index `i` |
| `Cell` | `victim_`, `wants_`, and `owner_`, a plain variable that is stored and loaded by the same instructions |

The mutex needs that the stores of `Lock` are in the memory before it loads (`Drained`), which is what `SeqCst` promises
and `AtomicStoreSeqCst` does not see to. `Inv` is the invariant of the machine without store buffers: of two threads
that have set `victim_` the one that it names waits. With them, a thread that does not load too early is behind that
machine by its stores only, and behind the loop only if it was let in there.
-/

namespace Mm.Peterson

open Function Transition Tso

inductive Cell where
  | victim
  | wants (k : Word)
  | owner
  deriving DecidableEq

inductive Pc where
  | idle
  -- `Lock`
  | setWants
  | setVictim
  | loadWants
  | loadVictim
  | setOwner
  -- the critical section
  | inside
  -- `Unlock`
  | getOwner
  | clearWants (k : Word)
  deriving DecidableEq

def me (i : Fin 2) : Word := BitVec.ofNat 64 i

/-- The operators of `Atomic` are `SeqCst`. -/
def code (i : Fin 2) : Pc → Option (Instr Cell Word Pc)
  | .idle => some (.skip .setWants)
  | .setWants => some (Atomic.store .seqCst (.wants (me i)) 1 .setVictim)
  | .setVictim => some (Atomic.store .seqCst .victim (me i) .loadWants)
  | .loadWants => some (Atomic.load .seqCst (.wants (1 - me i)) fun v => if v = 1 then .loadVictim else .setOwner)
  | .loadVictim => some (Atomic.load .seqCst .victim fun v => if v = me i then .loadWants else .setOwner)
  | .setOwner => some (.store .owner (me i) .inside)
  | .inside => some (.skip .getOwner)
  | .getOwner => some (.load .owner .clearWants)
  | .clearWants k => some (Atomic.store .seqCst (.wants k) 0 .idle)

/-- After the constructor; `owner_` is not initialized. -/
def memory (owner : Word) : Cell → Word
  | .owner => owner
  | _ => 0

def machine (owner : Word) : System (State (Fin 2) Cell Word Pc) (Act (Fin 2)) :=
  system code (memory owner) fun _ => .idle

/-- The loop of `Lock` loads from memory, with the thread's own stores in it. -/
def Drained (s : State (Fin 2) Cell Word Pc) : Act (Fin 2) → Prop
  | .instr i => s.loc i = .loadWants ∨ s.loc i = .loadVictim → s.buf i = []
  | .drain _ => True

/-! ### Without store buffers -/

def Pc.interested : Pc → Prop
  | .idle | .setWants => False
  | _ => True

def Pc.committed : Pc → Prop
  | .idle | .setWants | .setVictim => False
  | _ => True

/-- Behind the loop of `Lock`. -/
def Pc.past : Pc → Prop
  | .setOwner | .inside | .getOwner | .clearWants _ => True
  | _ => False

def Pc.owns : Pc → Prop
  | .inside | .getOwner => True
  | _ => False

theorem me_injective : ∀ {i j : Fin 2}, me i = me j → i = j := by decide

theorem other : ∀ {i j : Fin 2}, j ≠ i → 1 - me i = me j := by decide

theorem two : ∀ {i j k : Fin 2}, j ≠ k → k ≠ i → j = i := by decide

theorem Pc.committed.interested {l : Pc} (h : l.committed) : l.interested := by cases l <;> trivial

theorem Pc.past.committed {l : Pc} (h : l.past) : l.committed := by cases l <;> trivial

theorem Pc.owns.past {l : Pc} (h : l.owns) : l.past := by cases l <;> trivial

structure Inv (s : Sc (Fin 2) Cell Word Pc) : Prop where
  wants : ∀ i, (s.loc i).interested → s.mem (.wants (me i)) = 1
  victim : ∃ i, s.mem .victim = me i
  owner : ∀ i, (s.loc i).owns → s.mem .owner = me i
  clears : ∀ i k, s.loc i = .clearWants k → k = me i
  /-- While one thread is behind the loop, the other one in it is the victim. -/
  turn : ∀ i j, j ≠ i → (s.loc i).past → (s.loc j).committed → s.mem .victim = me j ∧ ¬ (s.loc j).past

theorem Inv.excludes {s : Sc (Fin 2) Cell Word Pc} (hi : Inv s) {i j : Fin 2} (hpi : (s.loc i).past)
    (hpj : (s.loc j).past) : i = j := by
  by_contra hne
  exact (hi.turn i j (Ne.symm hne) hpi hpj.committed).2 hpj

/-- Thread `i` goes to `l`, with this memory. -/
theorem Inv.move {s : Sc (Fin 2) Cell Word Pc} (hi : Inv s) {i : Fin 2} {l : Pc} {mem : Cell → Word}
    (hwants : l.interested → mem (.wants (me i)) = 1)
    (hwants' : ∀ j, j ≠ i → mem (.wants (me j)) = s.mem (.wants (me j)))
    (hvictim : ∃ i, mem .victim = me i)
    (howner : l.owns → mem .owner = me i)
    (howner' : ∀ j, j ≠ i → (s.loc j).owns → mem .owner = s.mem .owner)
    (hclears : ∀ k, l = .clearWants k → k = me i)
    (hturn : ∀ j, j ≠ i → l.past → (s.loc j).committed → mem .victim = me j ∧ ¬ (s.loc j).past)
    (hturn' : ∀ j, j ≠ i → (s.loc j).past → l.committed → mem .victim = me i ∧ ¬ l.past) :
    Inv ⟨mem, update s.loc i l⟩ := by
  refine ⟨fun j h => ?_, hvictim, fun j h => ?_, fun j k h => ?_, fun j k hne hj hk => ?_⟩
  · rcases eq_or_ne j i with rfl | hj
    · exact hwants (update_self j l s.loc ▸ h)
    · exact (hwants' j hj).trans (hi.wants j (update_of_ne hj l s.loc ▸ h))
  · rcases eq_or_ne j i with rfl | hj
    · exact howner (update_self j l s.loc ▸ h)
    · have h : (s.loc j).owns := update_of_ne hj l s.loc ▸ h
      exact (howner' j hj h).trans (hi.owner j h)
  · rcases eq_or_ne j i with rfl | hj
    · exact hclears k (update_self j l s.loc ▸ h)
    · exact hi.clears j k (update_of_ne hj l s.loc ▸ h)
  · rcases eq_or_ne j i with rfl | hj'
    · have hk : (s.loc k).committed := update_of_ne hne l s.loc ▸ hk
      simp only [update_self, update_of_ne hne] at hj ⊢
      exact hturn k hne hj hk
    · obtain rfl : k = i := two hne hj'
      simp only [update_self, update_of_ne hj'] at hj hk ⊢
      exact hturn' j hj' hj hk

theorem inv_init (o : Word) : Inv ⟨memory o, fun _ => .idle⟩ :=
  ⟨fun _ h => h.elim, ⟨0, rfl⟩, fun _ h => h.elim, fun _ _ h => (by cases h), fun _ _ _ h => h.elim⟩

section steps

variable {s : Sc (Fin 2) Cell Word Pc} {i : Fin 2}

/-- Only the place changes. -/
theorem Inv.go (hi : Inv s) {l : Pc} (hwants : l.interested → (s.loc i).interested)
    (howner : l.owns → s.mem .owner = me i)
    (hclears : ∀ k, l = .clearWants k → k = me i)
    (hturn : ∀ j, j ≠ i → l.past → (s.loc j).committed → s.mem .victim = me j ∧ ¬ (s.loc j).past)
    (hturn' : ∀ j, j ≠ i → (s.loc j).past → l.committed → s.mem .victim = me i ∧ ¬ l.past) :
    Inv ⟨s.mem, update s.loc i l⟩ :=
  hi.move (fun h => hi.wants i (hwants h)) (fun _ _ => rfl) hi.victim howner (fun _ _ _ => rfl) hclears hturn hturn'

/-- While a thread is behind the loop, the other one is not. -/
theorem Inv.alone (hi : Inv s) (hp : (s.loc i).past) {j : Fin 2} (hj : j ≠ i) : ¬ (s.loc j).past :=
  fun h => (hi.turn i j hj hp h.committed).2 h

theorem Inv.step (hi : Inv s) {x : Instr Cell Word Pc} (hx : code i (s.loc i) = some x) : Inv (s.next i x) := by
  cases hl : s.loc i with
  | idle =>
    rw [hl] at hx
    obtain rfl := Option.some.inj hx
    exact hi.go (fun h => h.elim) (fun h => h.elim) nofun (fun _ _ h => h.elim) (fun _ _ _ h => h.elim)
  | setWants =>
    rw [hl] at hx
    obtain rfl := Option.some.inj hx
    refine hi.move (fun _ => update_self ..) (fun j hj => update_of_ne ?_ ..) hi.victim (fun h => h.elim)
      (fun _ _ _ => rfl) nofun (fun _ _ h => h.elim) (fun _ _ _ h => h.elim)
    exact fun h => hj (me_injective (Cell.wants.inj h))
  | setVictim =>
    rw [hl] at hx
    obtain rfl := Option.some.inj hx
    exact hi.move (fun _ => hi.wants i (hl ▸ trivial)) (fun _ _ => rfl) ⟨i, update_self ..⟩ (fun h => h.elim)
      (fun _ _ _ => rfl) nofun (fun _ _ h => h.elim) (fun _ _ _ _ => ⟨update_self .., id⟩)
  | loadWants =>
    rw [hl] at hx
    obtain rfl := Option.some.inj hx
    have hcom : (s.loc i).committed := hl ▸ trivial
    change Inv ⟨s.mem, update s.loc i (if s.mem (.wants (1 - me i)) = 1 then .loadVictim else .setOwner)⟩
    split
    · exact hi.go (fun _ => hl ▸ trivial) (fun h => h.elim) nofun (fun _ _ h => h.elim)
        (fun j hj hp _ => ⟨(hi.turn j i hj.symm hp hcom).1, id⟩)
    · next h1 =>
      -- the other thread is outside
      have hout : ∀ j, j ≠ i → ¬ (s.loc j).interested := fun j hj h => h1 (other hj ▸ hi.wants j h)
      exact hi.go (fun _ => hl ▸ trivial) (fun h => h.elim) nofun
        (fun j hj _ hc => absurd hc.interested (hout j hj))
        (fun j hj hp _ => absurd hp.committed.interested (hout j hj))
  | loadVictim =>
    rw [hl] at hx
    obtain rfl := Option.some.inj hx
    have hcom : (s.loc i).committed := hl ▸ trivial
    change Inv ⟨s.mem, update s.loc i (if s.mem .victim = me i then .loadWants else .setOwner)⟩
    split
    · exact hi.go (fun _ => hl ▸ trivial) (fun h => h.elim) nofun (fun _ _ h => h.elim)
        (fun j hj hp _ => ⟨(hi.turn j i hj.symm hp hcom).1, id⟩)
    · next h1 =>
      -- the other thread is the victim
      have hout : ∀ j, j ≠ i → ¬ (s.loc j).past := fun j hj h => h1 (hi.turn j i hj.symm h hcom).1
      obtain ⟨k, hk⟩ := hi.victim
      have hki : k ≠ i := fun h => h1 (h ▸ hk)
      exact hi.go (fun _ => hl ▸ trivial) (fun h => h.elim) nofun
        (fun j hj _ _ => ⟨two hki hj.symm ▸ hk, hout j hj⟩) (fun j hj hp _ => absurd hp (hout j hj))
  | setOwner =>
    rw [hl] at hx
    obtain rfl := Option.some.inj hx
    have hp : (s.loc i).past := hl ▸ trivial
    exact hi.move (fun _ => hi.wants i (hl ▸ trivial)) (fun _ _ => rfl) hi.victim (fun _ => update_self ..)
      (fun j hj h => absurd h.past (hi.alone hp hj)) nofun (fun j hj _ hc => hi.turn i j hj hp hc)
      (fun j hj hpj _ => absurd hpj (hi.alone hp hj))
  | inside =>
    rw [hl] at hx
    obtain rfl := Option.some.inj hx
    have hp : (s.loc i).past := hl ▸ trivial
    exact hi.go (fun _ => hl ▸ trivial) (fun _ => hi.owner i (hl ▸ trivial)) nofun
      (fun j hj _ hc => hi.turn i j hj hp hc) (fun j hj hpj _ => absurd hpj (hi.alone hp hj))
  | getOwner =>
    rw [hl] at hx
    obtain rfl := Option.some.inj hx
    have hp : (s.loc i).past := hl ▸ trivial
    refine hi.go (fun _ => hl ▸ trivial) (fun h => h.elim) (fun k h => ?_)
      (fun j hj _ hc => hi.turn i j hj hp hc) (fun j hj hpj _ => absurd hpj (hi.alone hp hj))
    exact (Pc.clearWants.inj h).symm.trans (hi.owner i (hl ▸ trivial))
  | clearWants k =>
    rw [hl] at hx
    obtain rfl := Option.some.inj hx
    obtain rfl := hi.clears i k hl
    refine hi.move (fun h => h.elim) (fun j hj => update_of_ne ?_ ..) hi.victim (fun h => h.elim) (fun _ _ _ => rfl)
      nofun (fun _ _ h => h.elim) (fun _ _ _ h => h.elim)
    exact fun h => hj (me_injective (Cell.wants.inj h))

end steps

theorem inv {o : Word} {s : Sc (Fin 2) Cell Word Pc}
    (r : Reach (Sc.system code (memory o) fun _ => .idle) anyStep s) : Inv s := by
  refine r.invariant (I := Inv) ?_ ?_
  · rintro _ rfl
    exact inv_init o
  · intro s i s' hi _ hs
    obtain ⟨x, hx, rfl⟩ := Option.map_eq_some_iff.1 hs
    exact hi.step hx

/-! ### With store buffers -/

/-- Behind the loop, nothing but `owner_` is in the buffer of the thread. -/
def OwnerOnly : Pc → List (Cell × Word) → Prop
  | .setOwner, b => b = []
  | .inside, b | .getOwner, b => b = [] ∨ ∃ v, b = [(.owner, v)]
  | _, _ => True

section buffers

variable {o : Word} {s s' : State (Fin 2) Cell Word Pc} {a : Act (Fin 2)}

theorem OwnerOnly.drain {l : Pc} {first : Cell × Word} {b : List (Cell × Word)} (h : OwnerOnly l (first :: b)) :
    OwnerOnly l b := by
  cases l with
  | setOwner => cases h
  | inside | getOwner =>
    obtain h | ⟨v, h⟩ := h
    · cases h
    · exact .inl (List.cons.inj h).2
  | _ => trivial

theorem OwnerOnly.step (h : ∀ i, OwnerOnly (s.loc i) (s.buf i)) (hok : Drained s a) (hs : s.act code a = some s')
    (j : Fin 2) : OwnerOnly (s'.loc j) (s'.buf j) := by
  cases a with
  | instr i =>
    obtain ⟨x, hx, rfl⟩ := Option.map_eq_some_iff.1 hs
    have hbuf := h i
    rcases eq_or_ne j i with rfl | hne
    · cases hl : s.loc j with
      | loadWants =>
        rw [hl] at hx
        obtain rfl := Option.some.inj hx
        have hnil := hok (.inl hl)
        simp only [State.next, Atomic.load, atomicLoadSeqCst, update_self]
        split
        · trivial
        · exact hnil
      | loadVictim =>
        rw [hl] at hx
        obtain rfl := Option.some.inj hx
        have hnil := hok (.inr hl)
        simp only [State.next, Atomic.load, atomicLoadSeqCst, update_self]
        split
        · trivial
        · exact hnil
      | setOwner =>
        rw [hl] at hx hbuf
        obtain rfl := Option.some.inj hx
        simp only [State.next, update_self]
        exact .inr ⟨me j, by rw [show s.buf j = [] from hbuf]; rfl⟩
      | inside =>
        rw [hl] at hx hbuf
        obtain rfl := Option.some.inj hx
        simp only [State.next, update_self]
        exact hbuf
      | _ =>
        rw [hl] at hx
        obtain rfl := Option.some.inj hx
        simp only [State.next, Atomic.store, atomicStoreSeqCst, update_self]
        trivial
    · cases x with
      | load a k => simpa only [State.next, update_of_ne hne] using h j
      | store a v l => simpa only [State.next, update_of_ne hne] using h j
      | skip l => simpa only [State.next, update_of_ne hne] using h j
  | drain i =>
    obtain ⟨a, v, b, hb, rfl⟩ := act_drain hs
    rcases eq_or_ne j i with rfl | hne
    · simp only [update_self]
      exact (hb ▸ h j).drain
    · simpa only [update_of_ne hne] using h j

/-- Every load waits for the thread's own stores, or is that of `owner_`. -/
theorem settled (h : ∀ i, OwnerOnly (s.loc i) (s.buf i)) (hok : Drained s a) : Settled code (· = .getOwner) s a := by
  cases a with
  | drain i => trivial
  | instr i =>
    intro cell k hx
    have hbuf := h i
    cases hl : s.loc i with
    | loadWants => exact .inl (hok (.inl hl))
    | loadVictim => exact .inl (hok (.inr hl))
    | getOwner =>
      rw [hl] at hx hbuf
      obtain ⟨rfl, -⟩ := Instr.load.inj (Option.some.inj hx)
      obtain hnil | ⟨v, hv⟩ := hbuf
      · exact .inl hnil
      · exact .inr ⟨rfl, [], v, hv⟩
    | _ => rw [hl] at hx; cases hx

theorem reach_settled (r : Reach (machine o) Drained s) :
    Reach (machine o) (Settled code (· = .getOwner)) s ∧ ∀ i, OwnerOnly (s.loc i) (s.buf i) := by
  refine r.invariant (I := fun s => Reach (machine o) (Settled code (· = .getOwner)) s ∧
    ∀ i, OwnerOnly (s.loc i) (s.buf i)) ?_ ?_
  · rintro _ rfl
    exact ⟨.init rfl, fun _ => trivial⟩
  · intro s a s' ⟨hr, h⟩ hok hs
    exact ⟨hr.step (settled h hok) hs, OwnerOnly.step h hok hs⟩

/-- Only loads of the loop lead behind it. -/
theorem past_of_leadsTo (i : Fin 2) (l l' : Pc) (x : Instr Cell Word Pc) (hx : code i l = some x)
    (hown : x.isLoad → l = .getOwner) (hto : x.LeadsTo l') (h : l'.past) : l.past := by
  cases l with
  | loadWants =>
    obtain rfl := Option.some.inj hx
    cases hown rfl
  | loadVictim =>
    obtain rfl := Option.some.inj hx
    cases hown rfl
  | idle | setWants | setVictim =>
    obtain rfl := Option.some.inj hx
    obtain rfl := hto
    exact h
  | _ => trivial

/-- When the stores of `Lock` are in the memory before it loads, nobody enters while the other thread is inside. As it
is, both may be inside. -/
theorem excludes_when_drained (o : Word) :
    (∀ s, Reach (machine o) Drained s → ∀ i j, (s.loc i).past → (s.loc j).past → i = j) ∧
    ∃ s, Reach (machine o) anyStep s ∧ ∀ i, s.loc i = .inside := by
  constructor
  · intro s r i j hi hj
    exact excludes_of_sc past_of_leadsTo
      (fun s' hr _ _ => (inv hr).excludes) (reach_settled r).1 hi hj
  · -- each thread loads while the stores of the other one are in its buffer
    obtain ⟨s, hr, hp⟩ := Reach.of_exec_any (machine o) ([0, 1].flatMap fun i => List.replicate 5 (.instr i))
      (fun s => decide (∀ i, s.loc i = .inside)) (s := init (memory o) fun _ => .idle) rfl rfl
    exact ⟨s, hr, of_decide_eq_true hp⟩

end buffers

end Mm.Peterson
