import ConcurrencyCourse.Lib.Threads
import ConcurrencyCourse.LockFree.Queue
import ConcurrencyCourse.MSQueue.Chain

/-!
# `LockFreeQueue`: a FIFO queue

The histories of `MSQueue.Chain` are the abstract queue: `Push` takes effect when a node is linked behind the
last one, `TryPop` when `head_` moves. `tail_` plays no part in it: `QInv` only says that it is some node of
the chain.

* `PopOk`: what a `TryPop` knows about the queue. A thread between its CAS and the move of the value `claims`
  the node that it took.
* `Moves`: what a step does, as the other threads see it; `Shape` is kept by every `Moves`.
* `Told`: what the histories say about the thread's current call.
* `Fifo` is the contract; `linearizable` proves it for every run.
-/

namespace LockFreeQueue

open MSQueue Transition Function

variable {ι T : Type} [DecidableEq ι]

/-! ### Pop, with others at work -/

/-- What a `TryPop` knows about the queue. -/
def PopOk (q : Queue T) : PopPc T → Prop
  | .loadHead | .empty => True
  | .readNext h => ∃ k, k ≤ q.taken ∧ q.chain[k]? = some h
  | .readNext2 h => (∃ k, k ≤ q.taken ∧ q.chain[k]? = some h) ∧ (q.nodes h).next ≠ none
  | .casHead h next =>
    (∃ k, k ≤ q.taken ∧ q.chain[k]? = some h) ∧ (q.nodes h).next = next ∧ next ≠ none
  | .readNext3 h => ∃ k, k < q.taken ∧ q.chain[k]? = some h ∧
      ∀ n, q.chain[k + 1]? = some n → (q.nodes n).value = q.values[k]?
  | .moveValue h nh => ∃ k, k < q.taken ∧ q.chain[k]? = some h ∧ q.chain[k + 1]? = some nh ∧
      (q.nodes nh).value = q.values[k]?
  | .subSize _ | .popped _ => True

/-- The node in front of the one whose value the thread is going to move out. -/
def PopPc.claims : PopPc T → Option Nat
  | .readNext3 h | .moveValue h _ => some h
  | _ => none

/-- What a step of another thread leaves alone, for a thread that claims `mine`. -/
structure PopKeeps (q q' : Queue T) (mine : Option Nat) : Prop where
  chain : q.chain <+: q'.chain
  next : ∀ m ∈ q.chain, ∀ k, (q.nodes m).next = some k → (q'.nodes m).next = some k
  taken : q.taken ≤ q'.taken
  values : q.values <+: q'.values
  value : ∀ k h n, mine = some h → q.chain[k]? = some h → q.chain[k + 1]? = some n →
    (q'.nodes n).value = (q.nodes n).value

section pop

variable {q q' : Queue T} {pc pc' : PopPc T}

theorem getElem?_mono {α : Type} {l l' : List α} {k : Nat} {x : α} (h : l <+: l')
    (hx : l[k]? = some x) : l'[k]? = some x := by
  obtain ⟨t, rfl⟩ := h
  obtain ⟨hl, -⟩ := List.getElem?_eq_some_iff.1 hx
  rw [List.getElem?_append_left hl, hx]

theorem PopOk.mono (hi : QInv q) (h : PopOk q pc) (hk : PopKeeps q q' pc.claims) : PopOk q' pc := by
  have hidx : ∀ {n}, (∃ k, k ≤ q.taken ∧ q.chain[k]? = some n) →
      ∃ k, k ≤ q'.taken ∧ q'.chain[k]? = some n := by
    rintro n ⟨k, h1, h2⟩
    exact ⟨k, Nat.le_trans h1 hk.taken, getElem?_mono hk.chain h2⟩
  have hval : ∀ {k}, k < q.taken → q'.values[k]? = q.values[k]? := by
    intro k hlt
    have h1 := hi.taken_lt
    have h2 := hi.len
    obtain ⟨l, hl⟩ := hk.values
    rw [← hl, List.getElem?_append_left (by omega)]
  cases pc with
  | loadHead => trivial
  | readNext n => exact hidx h
  | readNext2 n =>
    obtain ⟨h1, h2⟩ := h
    obtain ⟨m, hm⟩ := Option.ne_none_iff_exists'.1 h2
    have hmem : n ∈ q.chain := h1.elim fun _ hk => List.mem_of_getElem? hk.2
    refine ⟨hidx h1, ?_⟩
    rw [hk.next n hmem m hm]
    nofun
  | casHead n next =>
    obtain ⟨h1, h2, h3⟩ := h
    obtain ⟨m, rfl⟩ := Option.ne_none_iff_exists'.1 h3
    have hmem : n ∈ q.chain := h1.elim fun _ hk => List.mem_of_getElem? hk.2
    exact ⟨hidx h1, hk.next n hmem m h2, h3⟩
  | readNext3 n =>
    obtain ⟨k, h1, h2, h3⟩ := h
    refine ⟨k, Nat.lt_of_lt_of_le h1 hk.taken, getElem?_mono hk.chain h2, fun m hm => ?_⟩
    have hlt : k + 1 < q.chain.length := Nat.lt_of_le_of_lt h1 hi.taken_lt
    have hm' : q.chain[k + 1]? = some m := by
      obtain ⟨l, hl⟩ := hk.chain
      rwa [← hl, List.getElem?_append_left hlt] at hm
    rw [hk.value k n m rfl h2 hm', hval h1]
    exact h3 m hm'
  | moveValue n nh =>
    obtain ⟨k, h1, h2, h3, h4⟩ := h
    refine ⟨k, Nat.lt_of_lt_of_le h1 hk.taken, getElem?_mono hk.chain h2,
      getElem?_mono hk.chain h3, ?_⟩
    rw [hk.value k n nh rfl h2 h3, hval h1, h4]
  | subSize => trivial
  | empty => trivial
  | popped => trivial

theorem popKeeps_of_takeKeeps (hk : TakeKeeps q q') (mine : Option Nat) : PopKeeps q q' mine :=
  ⟨hk.chain, hk.next, Nat.le_of_eq hk.taken.symm, hk.values,
    fun _ _ _ _ _ h => hk.value _ (List.mem_of_getElem? h)⟩

/-! ### What a step of a `TryPop` does -/

/-- It leaves the queue alone, moves `head_`, moves a value out, or counts. -/
inductive PopEffect (q : Queue T) : PopPc T → Queue T → PopPc T → Prop where
  | stay {pc pc' : PopPc T} (claims : pc'.claims = none ∨ pc'.claims = pc.claims) :
      PopEffect q pc q pc'
  | advance {h : Nat} {next : Ptr} (head : q.head = some h) (hn : (q.nodes h).next = next)
      (some_ : next ≠ none) : PopEffect q (.casHead h next) (q.advance next) (.readNext3 h)
  | moveOut {k h nh : Nat} {item : T} (lt : k < q.taken) (at_ : q.chain[k]? = some h)
      (mem : q.chain[k + 1]? = some nh) :
      PopEffect q (.moveValue h nh) (q.moveOut nh) (.subSize item)
  | subSize {item : T} : PopEffect q (.subSize item) q.subSize (.popped item)

theorem popStep_effect (hp : PopOk q pc) {sp : Bool} (h : popStep q sp pc = some (q', pc')) :
    PopEffect q pc q' pc' := by
  cases pc with
  | loadHead =>
    obtain ⟨n, -, he⟩ := Option.map_eq_some_iff.1 h
    obtain ⟨rfl, rfl⟩ := Prod.mk.inj he
    exact .stay (.inl rfl)
  | readNext n =>
    obtain ⟨rfl, rfl⟩ := Prod.mk.inj (Option.some.inj h)
    split <;> exact .stay (.inl rfl)
  | readNext2 n =>
    obtain ⟨rfl, rfl⟩ := Prod.mk.inj (Option.some.inj h)
    exact .stay (.inl rfl)
  | casHead n next =>
    simp only [popStep] at h
    split at h
    · next hc =>
      obtain ⟨rfl, rfl⟩ := Prod.mk.inj (Option.some.inj h)
      exact .advance hc.2 hp.2.1 hp.2.2
    · obtain ⟨rfl, rfl⟩ := Prod.mk.inj (Option.some.inj h)
      exact .stay (.inl rfl)
  | readNext3 n =>
    obtain ⟨nh, -, he⟩ := Option.map_eq_some_iff.1 h
    obtain ⟨rfl, rfl⟩ := Prod.mk.inj he
    exact .stay (.inr rfl)
  | moveValue n nh =>
    obtain ⟨item, -, he⟩ := Option.map_eq_some_iff.1 h
    obtain ⟨rfl, rfl⟩ := Prod.mk.inj he
    obtain ⟨k, h1, h2, h3, -⟩ := hp
    exact .moveOut h1 h2 h3
  | subSize item =>
    obtain ⟨rfl, rfl⟩ := Prod.mk.inj (Option.some.inj h)
    exact .subSize
  | empty => cases h
  | popped item => cases h

/-- The value of a node in front of `head_` is moved out. -/
theorem qInv_moveOut (hi : QInv q) {k n : Nat} (hk : k < q.taken) (hn : q.chain[k + 1]? = some n) :
    QInv (q.moveOut n) where
  nodup := hi.nodup
  lt := hi.lt
  head := hi.head
  taken_lt := hi.taken_lt
  next i m h := by
    refine Eq.trans ?_ (hi.next i m h)
    rcases eq_or_ne m n with rfl | hm
    · simp [Queue.moveOut]
    · simp [Queue.moveOut, hm]
  tail := hi.tail
  len := hi.len
  vals i m h1 h2 := by
    have h1 : q.taken ≤ i := h1
    have h2 : q.chain[i + 1]? = some m := h2
    have hm : m ≠ n := by
      rintro rfl
      have := hi.index_eq h2 hn
      omega
    simp only [Queue.moveOut, Function.update_of_ne hm]
    exact hi.vals i m h1 h2
  size := hi.size

theorem PopEffect.inv (hi : QInv q) (h : PopEffect q pc q' pc') : QInv q' := by
  cases h with
  | stay => exact hi
  | advance head hn some_ =>
    subst hn
    exact hi.advance head some_
  | moveOut lt _ mem => exact qInv_moveOut hi lt mem
  | subSize => exact hi.subSize

theorem PopEffect.chain_eq (h : PopEffect q pc q' pc') : q'.chain = q.chain := by
  cases h <;> rfl

theorem PopEffect.values_eq (h : PopEffect q pc q' pc') : q'.values = q.values := by
  cases h <;> rfl

theorem PopEffect.grows (h : PopEffect q pc q' pc') : Grows q q' := by
  refine ⟨h.chain_eq ▸ List.prefix_refl _, ?_, fun m _ k hm => ?_⟩
  · cases h <;> exact Nat.le_refl _
  · cases h with
    | stay | advance | subSize => exact hm
    | @moveOut _ _ nh =>
      rcases eq_or_ne m nh with rfl | hmn
      · simpa [Queue.moveOut] using hm
      · simpa [Queue.moveOut, hmn] using hm

theorem PopEffect.privateKept (h : PopEffect q pc q' pc') {n : Nat} (hn : Private q n) :
    PrivateKept q q' n := by
  refine ⟨h.chain_eq ▸ hn.notMem, ?_⟩
  cases h with
  | stay | advance | subSize => rfl
  | moveOut _ _ mem =>
    have hne := ne_of_mem_of_not_mem (List.mem_of_getElem? mem) hn.notMem
    simp [Queue.moveOut, hne.symm]

/-- A `TryPop` with another claim is not disturbed. -/
theorem PopEffect.keeps (hi : QInv q) (h : PopEffect q pc q' pc') {mine : Option Nat}
    (hne : ∀ n, mine = some n → pc.claims ≠ some n) : PopKeeps q q' mine := by
  refine ⟨h.grows.chain, h.grows.next, ?_, h.values_eq ▸ List.prefix_refl _, fun k m n hm h1 h2 => ?_⟩
  · cases h with
    | stay | moveOut | subSize => exact Nat.le_refl _
    | advance => exact Nat.le_succ _
  · cases h with
    | stay | advance | subSize => rfl
    | @moveOut k' h' nh _ _ at_ mem =>
      have hnn : n ≠ nh := by
        rintro rfl
        have hkk : k = k' := Nat.succ.inj (hi.index_eq h2 mem)
        subst hkk
        rw [at_] at h1
        exact hne m hm h1
      simp [Queue.moveOut, hnn]

/-- The thread's own step. -/
theorem popStep_ok (hi : QInv q) (hp : PopOk q pc) {sp : Bool}
    (h : popStep q sp pc = some (q', pc')) : PopOk q' pc' := by
  cases pc with
  | loadHead =>
    obtain ⟨n, hn, he⟩ := Option.map_eq_some_iff.1 h
    obtain ⟨rfl, rfl⟩ := Prod.mk.inj he
    exact ⟨_, Nat.le_refl _, hi.head ▸ hn⟩
  | readNext n =>
    obtain ⟨rfl, rfl⟩ := Prod.mk.inj (Option.some.inj h)
    split
    · trivial
    · next hn => exact ⟨hp, hn⟩
  | readNext2 n =>
    obtain ⟨rfl, rfl⟩ := Prod.mk.inj (Option.some.inj h)
    exact ⟨hp.1, rfl, hp.2⟩
  | casHead n next =>
    simp only [popStep] at h
    split at h
    · next hc =>
      obtain ⟨rfl, rfl⟩ := Prod.mk.inj (Option.some.inj h)
      refine ⟨q.taken, Nat.lt_succ_self _, hi.head ▸ hc.2, fun m hm => ?_⟩
      exact hi.vals _ _ (Nat.le_refl _) hm
    · obtain ⟨rfl, rfl⟩ := Prod.mk.inj (Option.some.inj h)
      trivial
  | readNext3 n =>
    obtain ⟨nh, hnh, he⟩ := Option.map_eq_some_iff.1 h
    obtain ⟨rfl, rfl⟩ := Prod.mk.inj he
    obtain ⟨k, h1, h2, h3⟩ := hp
    have h4 := (hi.next k n h2).symm.trans hnh
    exact ⟨k, h1, h2, h4, h3 nh h4⟩
  | moveValue n nh =>
    obtain ⟨item, -, he⟩ := Option.map_eq_some_iff.1 h
    obtain ⟨rfl, rfl⟩ := Prod.mk.inj he
    trivial
  | subSize item =>
    obtain ⟨rfl, rfl⟩ := Prod.mk.inj (Option.some.inj h)
    trivial
  | empty => cases h
  | popped item => cases h

end pop

/-! ### All threads -/

/-- The node that a thread has not linked yet. -/
def Pc.priv : Pc T → Option Nat
  | .push _ pc => pc.priv
  | _ => none

def Pc.claims : Pc T → Option Nat
  | .pop pc => pc.claims
  | _ => none

/-- What a thread knows about the queue. -/
def PcOk (q : Queue T) : Pc T → Prop
  | .idle => True
  | .push item pc => PutOk q pc ∧ ∀ n, pc.priv = some n → (q.nodes n).value = some item
  | .pop pc => PopOk q pc

/-- A step of a thread from `pc` to `pc'`, as the other threads see it. -/
structure Moves (q : Queue T) (pc : Pc T) (q' : Queue T) (pc' : Pc T) : Prop where
  inv : QInv q'
  ok : PcOk q' pc'
  grows : Grows q q'
  kept : ∀ n, Private q n → pc.priv ≠ some n → PrivateKept q q' n
  keeps : ∀ mine : Option Nat, (∀ n, mine = some n → pc.claims ≠ some n) → PopKeeps q q' mine
  priv : ∀ n, pc'.priv = some n → pc.priv = some n ∨ n = q.allocs
  claims : ∀ n, pc'.claims = some n → pc.claims = some n ∨ q.chain[q.taken]? = some n

/-- What holds in every state. -/
structure Shape (s : State ι T) : Prop where
  inv : QInv s.q
  ok : ∀ i, PcOk s.q (s.pc i)
  priv : Threads.Unique Pc.priv s.pc
  claims : Threads.Unique Pc.claims s.pc
  first : s.q.chain.head? = some 0

section moves

variable {q q' : Queue T} {pc pc' : Pc T}

theorem PcOk.private (h : PcOk q pc) {n : Nat} (hn : pc.priv = some n) : Private q n := by
  cases pc with
  | idle => cases hn
  | push item pc => exact h.1.private hn
  | pop pc => cases hn

theorem PopOk.claimed {pc : PopPc T} (h : PopOk q pc) {n : Nat} (hn : pc.claims = some n) :
    ∃ k, k < q.taken ∧ q.chain[k]? = some n := by
  cases pc <;> simp only [PopPc.claims, Option.some.injEq, reduceCtorEq] at hn <;> subst hn
  · obtain ⟨k, h1, h2, -⟩ := h
    exact ⟨k, h1, h2⟩
  · obtain ⟨k, h1, h2, -⟩ := h
    exact ⟨k, h1, h2⟩

theorem PcOk.claimed (h : PcOk q pc) {n : Nat} (hn : pc.claims = some n) :
    ∃ k, k < q.taken ∧ q.chain[k]? = some n := by
  cases pc with
  | idle => cases hn
  | push item pc => cases hn
  | pop pc => exact PopOk.claimed h hn

/-- A thread that has neither the node nor the claim of the one that moves. -/
theorem PcOk.mono (hi : QInv q) {other : Pc T} (h : PcOk q other) (hm : Moves q pc q' pc')
    (hp : ∀ n, other.priv = some n → pc.priv ≠ some n)
    (hc : ∀ n, other.claims = some n → pc.claims ≠ some n) : PcOk q' other := by
  cases other with
  | idle => trivial
  | push item opc =>
    have hk : ∀ n, opc.priv = some n → PrivateKept q q' n := fun n hn =>
      hm.kept n (h.1.private hn) (hp n hn)
    refine ⟨h.1.mono hm.grows hk, fun n hn => ?_⟩
    rw [(hk n hn).2]
    exact h.2 n hn
  | pop opc => exact PopOk.mono hi h (hm.keeps _ hc)

theorem Shape.step {s : State ι T} (hi : Shape s) {i : ι} {q' : Queue T} {pc' : Pc T}
    (hm : Moves s.q (s.pc i) q' pc') : Shape ((s.setQ q').setPc i pc') := by
  have hne : ∀ j, j ≠ i → ((s.setQ q').setPc i pc').pc j = s.pc j := fun j hj => update_of_ne hj ..
  have heq : ((s.setQ q').setPc i pc').pc i = pc' := update_self ..
  -- a node or a claim that the thread has after the step belongs to no other thread
  have hpriv : ∀ j n, j ≠ i → (s.pc j).priv = some n → pc'.priv ≠ some n := by
    intro j n hj hjn hn
    rcases hm.priv n hn with h | h
    · exact hj (hi.priv j i n hjn h)
    · have := ((hi.ok j).private hjn).lt
      omega
  have hclaims : ∀ j n, j ≠ i → (s.pc j).claims = some n → pc'.claims ≠ some n := by
    intro j n hj hjn hn
    rcases hm.claims n hn with h | h
    · exact hj (hi.claims j i n hjn h)
    · obtain ⟨k, h1, h2⟩ := (hi.ok j).claimed hjn
      have := hi.inv.index_eq h2 h
      omega
  refine ⟨hm.inv, fun j => ?_, hi.priv.update hpriv, hi.claims.update hclaims, ?_⟩
  · rcases eq_or_ne j i with rfl | hj
    · rw [heq]
      exact hm.ok
    · rw [hne j hj]
      exact (hi.ok j).mono hi.inv hm (fun n h1 h2 => hj (hi.priv j i n h1 h2))
        fun n h1 h2 => hj (hi.claims j i n h1 h2)
  · obtain ⟨l, hl⟩ := hm.grows.chain
    change q'.chain.head? = some 0
    rw [← hl, List.head?_append, hi.first]
    rfl

/-- A step that leaves the queue alone. -/
theorem Moves.stay (hi : QInv q) (hok : PcOk q pc') (hp : pc'.priv = none) (hc : pc'.claims = none) :
    Moves q pc q pc' where
  inv := hi
  ok := hok
  grows := ⟨List.prefix_refl _, Nat.le_refl _, fun _ _ _ h => h⟩
  kept _ hn _ := ⟨hn.notMem, rfl⟩
  keeps _ _ := ⟨List.prefix_refl _, fun _ _ _ h => h, Nat.le_refl _, List.prefix_refl _, fun _ _ _ _ _ _ => rfl⟩
  priv _ hn := by rw [hp] at hn; cases hn
  claims _ hn := by rw [hc] at hn; cases hn

theorem Moves.push (hi : QInv q) (item : T) :
    Moves q .idle (q.newNode item) (.push item (.loadTail q.allocs)) where
  inv := hi.newNode item
  ok := ⟨private_newNode hi item, fun n hn => by
    obtain rfl := Option.some.inj hn
    simp [Queue.newNode]⟩
  grows := (takeKeeps_newNode hi item).toGrows
  kept _ hn _ := privateKept_newNode hn item
  keeps _ _ := popKeeps_of_takeKeeps (takeKeeps_newNode hi item) _
  priv _ hn := .inr (Option.some.inj hn).symm
  claims _ hn := by cases hn

theorem Moves.put (hi : QInv q) {item : T} {pc pc' : PutPc} (hok : PcOk q (.push item pc)) {sp : Bool}
    {o : Ptr} (h : putStep q sp o pc = some (q', pc')) : Moves q (.push item pc) q' (.push item pc') := by
  have he := putStep_effect hi hok.1 h
  refine ⟨he.inv hi, ⟨putStep_ok hi hok.1 h, fun n hn => ?_⟩, he.takeKeeps.toGrows,
    fun n hn hne => he.privateKept hn hne, fun _ _ => popKeeps_of_takeKeeps he.takeKeeps _,
    fun n hn => .inl (he.priv_eq hn), fun n hn => (by cases hn)⟩
  have hv := hok.2 n (he.priv_eq hn)
  cases he with
  | move => exact hv
  | link => cases hn
  | bump => cases hn

theorem Moves.tryPop (hi : QInv q) {pc pc' : PopPc T} (hok : PopOk q pc) {sp : Bool}
    (h : popStep q sp pc = some (q', pc')) : Moves q (.pop pc) q' (.pop pc') := by
  have he := popStep_effect hok h
  refine ⟨he.inv hi, popStep_ok hi hok h, he.grows, fun n hn _ => he.privateKept hn,
    fun mine hne => he.keeps hi hne, fun n hn => (by cases hn), fun n hn => ?_⟩
  have hn : pc'.claims = some n := hn
  cases he with
  | stay claims =>
    rcases claims with hc | hc
    · rw [hc] at hn; cases hn
    · rw [hc] at hn; exact .inl hn
  | advance head =>
    obtain rfl := Option.some.inj hn
    exact .inr (hi.head ▸ head)
  | moveOut => cases hn
  | subSize => cases hn

end moves

/-! ### The histories -/

/-- What the event of a step says about the queue. -/
def Tells (q q' : Queue T) : Option (Event T) → Prop
  | none => q'.values = q.values ∧ q'.taken = q.taken
  | some (.enq item) => q'.values = q.values ++ [item] ∧ q'.taken = q.taken
  | some (.deq item) => q'.values = q.values ∧ q'.taken = q.taken + 1 ∧ q.values[q.taken]? = some item

/-- What the histories say about the current call of a thread: `put` is what it linked, `got` what it took. -/
def Told (q : Queue T) (put got : Option T) : Pc T → Prop
  | .idle => True
  | .push item pc => put = if pc.priv.isSome then none else some item
  | .pop (.readNext3 h) | .pop (.moveValue h _) =>
    ∃ k, k < q.taken ∧ q.chain[k]? = some h ∧ q.values[k]? = got
  | .pop (.subSize item) | .pop (.popped item) => got = some item
  | .pop _ => got = none

def Act.thread : Act ι T → ι
  | .push i _ | .tryPop i | .step i _ _ | .finish i => i

section histories

variable {h : History (State ι T) (Act ι T)} {s : State ι T} {a : Act ι T} {i : ι}

omit [DecidableEq ι] in
theorem event_thread {j : ι} {e : Event T} (he : event s a = some (j, e)) : j = a.thread := by
  unfold event at he
  split at he
  · split at he
    · split at he
      · exact (Prod.mk.inj (Option.some.inj he)).1.symm
      · cases he
    · split at he
      · obtain ⟨item, -, he⟩ := Option.map_eq_some_iff.1 he
        exact (Prod.mk.inj he).1.symm
      · cases he
    · cases he
  · cases he

/-- A step of another thread. -/
theorem linked_other (hi : a.thread ≠ i) : linked i ((a, s) :: h) = linked i h := by
  conv_lhs => unfold linked
  split
  · next he => exact if_neg fun e => hi (event_thread he ▸ e)
  · split
    · exact if_neg hi
    · rfl

theorem taken_other (hi : a.thread ≠ i) : taken i ((a, s) :: h) = taken i h := by
  conv_lhs => unfold taken
  split
  · next he => exact if_neg fun e => hi (event_thread he ▸ e)
  · split
    · exact if_neg hi
    · rfl

/-- A step inside a call without an event. -/
theorem linked_quiet {sp : Bool} {o : Ptr} (he : event s (.step i sp o) = none) :
    linked i ((.step i sp o, s) :: h) = linked i h := by
  simp only [linked, he]

theorem taken_quiet {sp : Bool} {o : Ptr} (he : event s (.step i sp o) = none) :
    taken i ((.step i sp o, s) :: h) = taken i h := by
  simp only [taken, he]

end histories

section told

variable {q q' : Queue T} {put got : Option T}

/-- Steps of other threads do not change what was told. -/
theorem Told.mono (hi : QInv q) {pc : Pc T} (h : Told q put got pc) (hc : q.chain <+: q'.chain)
    (ht : q.taken ≤ q'.taken) (hv : q.values <+: q'.values) : Told q' put got pc := by
  have hgot : ∀ {n}, (∃ k, k < q.taken ∧ q.chain[k]? = some n ∧ q.values[k]? = got) →
      ∃ k, k < q'.taken ∧ q'.chain[k]? = some n ∧ q'.values[k]? = got := by
    rintro n ⟨k, h1, h2, h3⟩
    have hlen := hi.len
    have hlt := hi.taken_lt
    have hget : q.values[k]? = some q.values[k] := List.getElem?_eq_getElem (by omega)
    refine ⟨k, Nat.lt_of_lt_of_le h1 ht, getElem?_mono hc h2, ?_⟩
    rw [getElem?_mono hv hget, ← h3, hget]
  cases pc with
  | idle => trivial
  | push item pc => exact h
  | pop pc =>
    cases pc with
    | readNext3 n => exact hgot h
    | moveValue n nh => exact hgot h
    | loadHead => exact h
    | readNext n => exact h
    | readNext2 n => exact h
    | casHead n next => exact h
    | subSize item => exact h
    | empty => exact h
    | popped item => exact h

end told

section step

variable {h : History (State ι T) (Act ι T)} {s s' : State ι T} {i : ι}

omit [DecidableEq ι] in
/-- A step of a `Push`. -/
theorem put_tells (hi : QInv s.q) {item : T} {pc pc' : PutPc} (hpc : s.pc i = .push item pc)
    (hok : PcOk s.q (.push item pc)) {sp : Bool} {o : Ptr} {q' : Queue T}
    (hs : putStep s.q sp o pc = some (q', pc')) :
    (event s (.step i sp o) = none ∧ Tells s.q q' none ∧ pc'.priv = pc.priv) ∨
      (event s (.step i sp o) = some (i, .enq item) ∧ Tells s.q q' (some (.enq item)) ∧
        pc'.priv = none) := by
  have he := putStep_effect hi hok.1 hs
  cases he with
  | move mem priv phase =>
    refine .inl ⟨?_, ⟨rfl, rfl⟩, priv⟩
    simp only [event, hpc]
    split
    · next n t heq =>
      obtain ⟨rfl, rfl⟩ := Pc.push.inj heq
      refine if_neg fun hc => ?_
      simp only [putStep, if_pos hc, Option.some.injEq, Prod.mk.injEq] at hs
      rw [← hs.2] at priv
      cases priv
    · next heq => cases heq
    · rfl
  | @link n t mem last new =>
    have hv := hok.2 n rfl
    refine .inr ⟨?_, ⟨by simp [Queue.link, hv], rfl⟩, rfl⟩
    simp only [event, hpc]
    refine if_pos ⟨?_, last⟩
    cases sp with
    | false => rfl
    | true =>
      simp only [putStep, reduceCtorEq, false_and, if_false, Option.some.injEq, Prod.mk.injEq] at hs
      exact absurd hs.2 (by rintro ⟨⟩)
  | bump =>
    refine .inl ⟨?_, ⟨rfl, rfl⟩, rfl⟩
    simp only [event, hpc]

omit [DecidableEq ι] in
/-- A step of a `TryPop`. -/
theorem pop_tells (hi : QInv s.q) {pc pc' : PopPc T} (hpc : s.pc i = .pop pc) (hok : PopOk s.q pc)
    {sp : Bool} {o : Ptr} {q' : Queue T} (hs : popStep s.q sp pc = some (q', pc')) :
    (event s (.step i sp o) = none ∧ Tells s.q q' none ∧
        ∀ put got, Told s.q put got (.pop pc) → Told q' put got (.pop pc')) ∨
      ∃ item, event s (.step i sp o) = some (i, .deq item) ∧ Tells s.q q' (some (.deq item)) ∧
        Told s.q none none (.pop pc) ∧ ∀ put, Told q' put (some item) (.pop pc') := by
  cases pc with
  | loadHead =>
    obtain ⟨n, -, he⟩ := Option.map_eq_some_iff.1 hs
    obtain ⟨rfl, rfl⟩ := Prod.mk.inj he
    exact .inl ⟨by simp only [event, hpc], ⟨rfl, rfl⟩, fun _ _ ht => ht⟩
  | readNext n =>
    obtain ⟨rfl, rfl⟩ := Prod.mk.inj (Option.some.inj hs)
    refine .inl ⟨by simp only [event, hpc], ⟨rfl, rfl⟩, fun _ _ ht => ?_⟩
    split <;> exact ht
  | readNext2 n =>
    obtain ⟨rfl, rfl⟩ := Prod.mk.inj (Option.some.inj hs)
    exact .inl ⟨by simp only [event, hpc], ⟨rfl, rfl⟩, fun _ _ ht => ht⟩
  | casHead n next =>
    obtain ⟨-, hnext, hne⟩ := hok
    simp only [popStep] at hs
    split at hs
    · next hc =>
      obtain ⟨rfl, rfl⟩ := Prod.mk.inj (Option.some.inj hs)
      have hat : s.q.chain[s.q.taken]? = some n := hi.head ▸ hc.2
      obtain ⟨m, rfl⟩ := Option.ne_none_iff_exists'.1 hne
      have hm := (hi.next _ n hat).symm.trans hnext
      -- the node behind `head_` holds the next value
      have hlen := hi.len
      obtain ⟨hlt, -⟩ := List.getElem?_eq_some_iff.1 hm
      have hval := List.getElem?_eq_getElem (l := s.q.values) (i := s.q.taken) (by omega)
      refine .inr ⟨s.q.values[s.q.taken], ?_, ⟨rfl, rfl, hval⟩, rfl, fun _ => ?_⟩
      · simp only [event, hpc, if_pos hc, Option.bind_some, hi.vals _ m (Nat.le_refl _) hm, hval,
          Option.map_some]
      · exact ⟨s.q.taken, Nat.lt_succ_self _, hat, hval⟩
    · next hc =>
      obtain ⟨rfl, rfl⟩ := Prod.mk.inj (Option.some.inj hs)
      exact .inl ⟨by simp only [event, hpc, if_neg hc], ⟨rfl, rfl⟩, fun _ _ ht => ht⟩
  | readNext3 n =>
    obtain ⟨nh, -, he⟩ := Option.map_eq_some_iff.1 hs
    obtain ⟨rfl, rfl⟩ := Prod.mk.inj he
    exact .inl ⟨by simp only [event, hpc], ⟨rfl, rfl⟩, fun _ _ ht => ht⟩
  | moveValue n nh =>
    obtain ⟨item, hv, he⟩ := Option.map_eq_some_iff.1 hs
    obtain ⟨rfl, rfl⟩ := Prod.mk.inj he
    refine .inl ⟨by simp only [event, hpc], ⟨rfl, rfl⟩, fun put got ht => ?_⟩
    obtain ⟨k, -, h2, -, h4⟩ := hok
    obtain ⟨k', -, h2', h3'⟩ := ht
    have hk := hi.index_eq h2 h2'
    subst hk
    exact h3'.symm.trans (h4.symm.trans hv)
  | subSize item =>
    obtain ⟨rfl, rfl⟩ := Prod.mk.inj (Option.some.inj hs)
    exact .inl ⟨by simp only [event, hpc], ⟨rfl, rfl⟩, fun _ _ ht => ht⟩
  | empty => cases hs
  | popped item => cases hs

/-! ### The invariant of all runs -/

structure Inv (h : History (State ι T) (Act ι T)) (s : State ι T) : Prop extends Shape s where
  enqueued : enqueued h = s.q.values
  dequeued : dequeued h = s.q.values.take s.q.taken
  told : ∀ i, Told s.q (linked i h) (taken i h) (s.pc i)

theorem inv_init : Inv [] (init : State ι T) where
  inv := .empty
  ok _ := trivial
  priv _ _ _ h := by cases h
  claims _ _ _ h := by cases h
  first := rfl
  enqueued := rfl
  dequeued := rfl
  told _ := trivial

/-- One step, from what it does and what it tells. -/
theorem Inv.move (hi : Inv h s) {a : Act ι T} {q' : Queue T} {pc' : Pc T}
    (hm : Moves s.q (s.pc a.thread) q' pc') (ht : Tells s.q q' ((event s a).map Prod.snd))
    (hown : Told q' (linked a.thread ((a, s) :: h)) (taken a.thread ((a, s) :: h)) pc') :
    Inv ((a, s) :: h) ((s.setQ q').setPc a.thread pc') := by
  have hlen := hi.inv.len
  have hlt := hi.inv.taken_lt
  have hvals : s.q.values <+: q'.values := by
    unfold Tells at ht
    split at ht
    · exact ht.1 ▸ List.prefix_refl _
    · exact ht.1 ▸ List.prefix_append _ _
    · exact ht.1 ▸ List.prefix_refl _
  have htaken : s.q.taken ≤ q'.taken := by
    unfold Tells at ht
    split at ht
    · exact Nat.le_of_eq ht.2.symm
    · exact Nat.le_of_eq ht.2.symm
    · exact ht.2.1 ▸ Nat.le_succ _
  refine { toShape := hi.toShape.step hm, enqueued := ?_, dequeued := ?_, told := fun j => ?_ }
  · change LockFreeQueue.enqueued ((a, s) :: h) = q'.values
    rw [LockFreeQueue.enqueued, hi.enqueued]
    split
    · next he => rw [he] at ht; exact ht.1.symm
    · next hne =>
      unfold Tells at ht
      split at ht
      · exact ht.1.symm
      · next he =>
        obtain ⟨⟨j, e⟩, hx, rfl⟩ := Option.map_eq_some_iff.1 he
        exact absurd hx (hne j _)
      · exact ht.1.symm
  · change LockFreeQueue.dequeued ((a, s) :: h) = q'.values.take q'.taken
    rw [LockFreeQueue.dequeued, hi.dequeued]
    split
    · next he =>
      rw [he] at ht
      obtain ⟨h1, h2, h3⟩ := ht
      rw [h1, h2, List.take_add_one, h3]
      rfl
    · next hne =>
      unfold Tells at ht
      split at ht
      · rw [ht.1, ht.2]
      · rw [ht.1, ht.2, List.take_append_of_le_length (by omega)]
      · next he =>
        obtain ⟨⟨j, e⟩, hx, rfl⟩ := Option.map_eq_some_iff.1 he
        exact absurd hx (hne j _)
  · rcases eq_or_ne a.thread j with rfl | hj
    · simpa only [State.setPc, State.setQ, update_self] using hown
    · rw [linked_other hj, taken_other hj]
      simpa only [State.setPc, State.setQ, update_of_ne hj.symm] using
        (hi.told j).mono hi.inv hm.grows.chain htaken hvals

theorem inv_step {a : Act ι T} (hi : Inv h s) (hs : step s a = some s') : Inv ((a, s) :: h) s' := by
  cases a with
  | push i item =>
    simp only [step] at hs
    split at hs
    · next hpc =>
      obtain rfl := Option.some.inj hs
      refine hi.move (a := .push i item) (hpc ▸ Moves.push hi.inv item) ⟨rfl, rfl⟩ ?_
      simp [Told, linked, event, Act.thread, PutPc.priv]
    · cases hs
  | tryPop i =>
    simp only [step] at hs
    split at hs
    · next hpc =>
      obtain rfl := Option.some.inj hs
      have hm : Moves s.q (s.pc i) s.q (.pop .loadHead) := hpc ▸ Moves.stay hi.inv trivial rfl rfl
      refine hi.move (a := .tryPop i) hm ⟨rfl, rfl⟩ ?_
      simp [Told, taken, event, Act.thread]
    · cases hs
  | step i sp o =>
    simp only [step] at hs
    split at hs
    · cases hs
    · next item pc hpc =>
      obtain ⟨⟨q', pc'⟩, hx, rfl⟩ := Option.map_eq_some_iff.1 hs
      have hok : PcOk s.q (.push item pc) := hpc ▸ hi.ok i
      have hm := Moves.put hi.inv hok hx
      have htold : Told s.q (linked i h) (taken i h) (.push item pc) := hpc ▸ hi.told i
      rcases put_tells (o := o) hi.inv hpc hok hx with ⟨he, ht, hp⟩ | ⟨he, ht, hp⟩
      · refine hi.move (a := .step i sp o) (hpc ▸ hm) (by rw [he]; exact ht) ?_
        rw [Act.thread, linked_quiet he, taken_quiet he]
        simp only [Told, hp]
        exact htold
      · refine hi.move (a := .step i sp o) (hpc ▸ hm) (by rw [he]; exact ht) ?_
        simp [Told, linked, he, Act.thread, hp]
    · next pc hpc =>
      obtain ⟨⟨q', pc'⟩, hx, rfl⟩ := Option.map_eq_some_iff.1 hs
      have hok : PopOk s.q pc := by
        have := hi.ok i
        rwa [hpc] at this
      have hm := Moves.tryPop hi.inv hok hx
      have htold : Told s.q (linked i h) (taken i h) (.pop pc) := hpc ▸ hi.told i
      rcases pop_tells (o := o) hi.inv hpc hok hx with ⟨he, ht, hp⟩ | ⟨item, he, ht, -, hp⟩
      · refine hi.move (a := .step i sp o) (hpc ▸ hm) (by rw [he]; exact ht) ?_
        rw [Act.thread, linked_quiet he, taken_quiet he]
        exact hp _ _ htold
      · refine hi.move (a := .step i sp o) (hpc ▸ hm) (by rw [he]; exact ht) ?_
        simp only [taken, he, Act.thread, if_true]
        exact hp _
  | finish i =>
    have hmove : ∀ pc, s.pc i = pc → pc.priv = none → pc.claims = none →
        Inv ((.finish i, s) :: h) (s.setPc i .idle) := fun pc hpc _ _ =>
      have hm : Moves s.q (s.pc i) s.q .idle := Moves.stay hi.inv trivial rfl rfl
      hi.move (a := .finish i) hm ⟨rfl, rfl⟩ trivial
    simp only [step] at hs
    split at hs
    · next hpc => obtain rfl := Option.some.inj hs; exact hmove _ hpc rfl rfl
    · next hpc => obtain rfl := Option.some.inj hs; exact hmove _ hpc rfl rfl
    · next hpc => obtain rfl := Option.some.inj hs; exact hmove _ hpc rfl rfl
    · cases hs

end step

/-! ### A Push finds the end of the chain -/

section links

variable {s : State ι T} {i : ι} {item : T} {outer : Ptr}

/-- Steps of thread `i` alone put `item` behind the last node. -/
def Links (i : ι) (item : T) (outer : Ptr) (s : State ι T) : Prop :=
  ∃ k s', exec (system ι T) noCheck s (List.replicate k (.step i false outer)) = some s' ∧
    s'.contents = s.contents ++ [item] ∧ ∃ n, s'.pc i = .push item (.swing n)

theorem Links.step (hi : Shape s) {pc pc' : PutPc} {q' : Queue T} (hpc : s.pc i = .push item pc)
    (hs : putStep s.q false outer pc = some (q', pc')) (hv : q'.values = s.q.values)
    (ht : q'.taken = s.q.taken)
    (h : ∀ s' : State ι T, Shape s' → s'.q = q' → s'.pc i = .push item pc' → Links i item outer s') :
    Links i item outer s := by
  have hstep : LockFreeQueue.step s (.step i false outer) =
      some ((s.setQ q').setPc i (.push item pc')) := by
    simp only [LockFreeQueue.step, hpc, hs, Option.map_some]
  have hshape : Shape ((s.setQ q').setPc i (.push item pc')) :=
    hi.step (hpc ▸ Moves.put hi.inv (hpc ▸ hi.ok i) hs)
  obtain ⟨k, s', he, hc, hp⟩ := h _ hshape rfl (update_self ..)
  refine ⟨k + 1, s', ?_, hc.trans ?_, hp⟩
  · rw [List.replicate_succ, exec, noCheck, if_pos rfl]
    change (LockFreeQueue.step s (.step i false outer)).bind _ = _
    rw [hstep]
    exact he
  · change List.drop q'.taken q'.values ++ [item] = _
    rw [hv, ht]
    rfl

theorem Links.last (hi : Shape s) {n t : Nat} (hpc : s.pc i = .push item (.link n t))
    (hn : (s.q.nodes t).next = none) : Links i item outer s := by
  have hok : PcOk s.q (.push item (.link n t)) := hpc ▸ hi.ok i
  have hv := hok.2 n rfl
  refine ⟨1, (s.setQ (s.q.link t n)).setPc i (.push item (.swing n)), ?_, ?_, n, update_self ..⟩
  · simp [exec, noCheck, system, LockFreeQueue.step, hpc, putStep, hn]
  · have hlen := hi.inv.len
    have hlt := hi.inv.taken_lt
    change List.drop s.q.taken (s.q.values ++ _) = _
    rw [List.drop_append_of_le_length (by omega), hv]
    rfl

/-- From `loadTail`: every round moves `tail_` one node further, and the last one links. -/
theorem Links.loadTail (d : Nat) : ∀ {s : State ι T}, Shape s → ∀ {n t j : Nat},
    s.pc i = .push item (.loadTail n) → s.q.tail = some t → s.q.chain[j]? = some t →
    j + d + 1 = s.q.chain.length → Links i item outer s := by
  induction d with
  | zero =>
    intro s hi n t j hpc ht hj hd
    have hn : (s.q.nodes t).next = none :=
      (hi.inv.next j t hj).trans (List.getElem?_eq_none (by omega))
    refine .step hi hpc (by rw [putStep, ht]; rfl) rfl rfl fun s1 hi1 hq1 hpc1 => ?_
    refine .step hi1 hpc1 (by rw [putStep, hq1, if_neg (by simp [hn])]) (by rw [hq1]) (by rw [hq1])
      fun s2 hi2 hq2 hpc2 => ?_
    exact .last hi2 hpc2 (by rw [hq2]; exact hn)
  | succ d ih =>
    intro s hi n t j hpc ht hj hd
    have hlt : j + 1 < s.q.chain.length := by omega
    have hn : (s.q.nodes t).next = some s.q.chain[j + 1] :=
      (hi.inv.next j t hj).trans (List.getElem?_eq_getElem hlt)
    refine .step hi hpc (by rw [putStep, ht]; rfl) rfl rfl fun s1 hi1 hq1 hpc1 => ?_
    refine .step hi1 hpc1 (by rw [putStep, hq1, if_pos (by simp [hn])]) (by rw [hq1]) (by rw [hq1])
      fun s2 hi2 hq2 hpc2 => ?_
    refine .step hi2 hpc2 (by rw [putStep, hq2]) (by rw [hq2]) (by rw [hq2]) fun s3 hi3 hq3 hpc3 => ?_
    refine .step hi3 hpc3 (by rw [putStep, hq3, if_pos ⟨rfl, ht⟩]) (by rw [hq3]; rfl) (by rw [hq3]; rfl)
      fun s4 hi4 hq4 hpc4 => ?_
    have hchain : s4.q.chain = s.q.chain := by rw [hq4]; rfl
    refine ih hi4 hpc4 (t := s.q.chain[j + 1]) (j := j + 1) ?_ ?_ ?_
    · rw [hq4]; exact hn
    · rw [hchain]; exact List.getElem?_eq_getElem hlt
    · rw [hchain]; omega

theorem Links.start (hi : Shape s) {n : Nat} (hpc : s.pc i = .push item (.loadTail n)) :
    Links i item outer s := by
  obtain ⟨t, hmem, ht⟩ := hi.inv.tail
  obtain ⟨j, hj⟩ := List.mem_iff_getElem?.1 hmem
  obtain ⟨hlt, -⟩ := List.getElem?_eq_some_iff.1 hj
  exact Links.loadTail (s.q.chain.length - 1 - j) hi hpc ht hj (by omega)

theorem Links.link (hi : Shape s) {n t : Nat} (hpc : s.pc i = .push item (.link n t)) :
    Links i item outer s := by
  by_cases hn : (s.q.nodes t).next = none
  · exact .last hi hpc hn
  · refine .step hi hpc (by rw [putStep, if_neg fun hc => hn hc.2]) rfl rfl fun s1 hi1 _ hpc1 => ?_
    exact .start hi1 hpc1

theorem Links.help (hi : Shape s) {n t : Nat} {next : Ptr}
    (hpc : s.pc i = .push item (.help n t next)) : Links i item outer s := by
  by_cases ht : s.q.tail = some t
  · refine .step hi hpc (by rw [putStep, if_pos ⟨rfl, ht⟩]) (by rfl) (by rfl) fun s1 hi1 _ hpc1 => ?_
    exact .start hi1 hpc1
  · obtain ⟨t', -, ht'⟩ := hi.inv.tail
    refine .step hi hpc (by rw [putStep, if_neg fun hc => ht hc.2, ht']; rfl) rfl rfl
      fun s1 hi1 _ hpc1 => ?_
    exact .link hi1 hpc1

/-- A `Push` that has not linked its node yet can do it alone, wherever it is. -/
theorem links (hi : Shape s) {pc : PutPc} (hpc : s.pc i = .push item pc) (hp : pc.priv.isSome) :
    Links i item outer s := by
  have hhelp : ∀ {s : State ι T}, Shape s → ∀ {n t : Nat}, s.pc i = .push item (.readNext2 n t) →
      Links i item outer s := fun hi n t hpc =>
    .step hi hpc rfl rfl rfl fun s1 hi1 _ hpc1 => .help hi1 hpc1
  cases pc with
  | loadTail n => exact .start hi hpc
  | readNext n t =>
    by_cases hn : (s.q.nodes t).next = none
    · refine .step hi hpc (by rw [putStep, if_neg (by simp [hn])]) rfl rfl fun s1 hi1 _ hpc1 => ?_
      exact .link hi1 hpc1
    · refine .step hi hpc (by rw [putStep, if_pos hn]) rfl rfl fun s1 hi1 _ hpc1 => ?_
      exact hhelp hi1 hpc1
  | readNext2 n t => exact hhelp hi hpc
  | help n t next => exact .help hi hpc
  | link n t => exact .link hi hpc
  | swing n => cases hp
  | bump => cases hp
  | done => cases hp

end links

/-! ### The contract -/

/-- What the call linked or took, of the kind of the event. -/
def Event.before (put got : Option T) : Event T → Option T
  | .enq _ => put
  | .deq _ => got

/-- The node behind. -/
def Next (q : Queue T) (n m : Nat) : Prop := (q.nodes n).next = some m

/-- In a state `s` that a run with history `h` led to. -/
structure Fifo (h : History (State ι T) (Act ι T)) (s : State ι T) : Prop where
  /-- The nodes from the sentinel on are one chain without a cycle, which ends. -/
  sentinel : s.q.chain.head? = some 0
  nodup : s.q.chain.Nodup
  follows : ∀ k n, s.q.chain[k]? = some n → (s.q.nodes n).next = s.q.chain[k + 1]?
  head : ∃ n ∈ s.q.chain, s.q.head = some n
  /-- `tail_` is in it, and the last node is reachable from there. -/
  tail : ∃ t ∈ s.q.chain, s.q.tail = some t ∧
    ∃ e, s.q.chain.getLast? = some e ∧ Relation.ReflTransGen (Next s.q) t e
  /-- What was taken, then what is behind `head_`, is what was linked, in this order. -/
  order : dequeued h ++ s.contents = enqueued h
  behind : ∀ k n, s.q.chain[s.q.taken + 1 + k]? = some n → (s.q.nodes n).value = s.contents[k]?
  /-- A call links or takes once, and a call that returns has done it: what it returns is what it took. -/
  once : ∀ a i e, (step s a).isSome → event s a = some (i, e) →
    e.before (linked i h) (taken i h) = none
  pushed : ∀ i item, s.pc i = .push item .done → linked i h = some item
  popped : ∀ i item, s.pc i = .pop (.popped item) → taken i h = some item
  nothing : ∀ i, s.pc i = .pop .empty → taken i h = none
  /-- `nullopt` is decided by a step that reads a null `next` while the queue is empty. -/
  empty : ∀ i n sp o, s.pc i = .pop (.readNext n) → (s.q.nodes n).next = none →
    (step s (.step i sp o)).any (fun s' => (s'.pc i matches .pop .empty)) = true ∧ s.contents = []
  only : ∀ i sp o s', step s (.step i sp o) = some s' → s'.pc i = .pop .empty →
    ∃ n, s.pc i = .pop (.readNext n) ∧ (s.q.nodes n).next = none
  /-- A `Push` that has not linked its node yet reaches the end of the chain by its own steps. -/
  pushing : ∀ i item pc outer, s.pc i = .push item pc → pc.priv.isSome → Links i item outer s

/-- The nodes of the chain are reachable from the ones before them. -/
theorem reach_next {q : Queue T} (hi : QInv q) {j t : Nat} (ht : q.chain[j]? = some t) (d : Nat) :
    ∀ {e : Nat}, q.chain[j + d]? = some e → Relation.ReflTransGen (Next q) t e := by
  induction d with
  | zero =>
    intro e he
    obtain rfl := Option.some.inj (ht.symm.trans he)
    exact .refl
  | succ d ih =>
    intro e he
    obtain ⟨hlt, -⟩ := List.getElem?_eq_some_iff.1 he
    have hm : q.chain[j + d]? = some q.chain[j + d] := List.getElem?_eq_getElem (by omega)
    exact (ih hm).tail ((hi.next _ _ hm).trans he)

section fifo

variable {h : History (State ι T) (Act ι T)} {s : State ι T} {i : ι}

theorem Inv.tail_reaches (hi : Inv h s) : ∃ t ∈ s.q.chain, s.q.tail = some t ∧
    ∃ e, s.q.chain.getLast? = some e ∧ Relation.ReflTransGen (Next s.q) t e := by
  obtain ⟨t, hmem, ht⟩ := hi.inv.tail
  obtain ⟨j, hj⟩ := List.mem_iff_getElem?.1 hmem
  obtain ⟨hlt, -⟩ := List.getElem?_eq_some_iff.1 hj
  have he : s.q.chain[j + (s.q.chain.length - 1 - j)]? = some s.q.chain[s.q.chain.length - 1] := by
    rw [show j + (s.q.chain.length - 1 - j) = s.q.chain.length - 1 by omega]
    exact List.getElem?_eq_getElem (by omega)
  refine ⟨t, hmem, ht, s.q.chain[s.q.chain.length - 1], ?_, reach_next hi.inv hj _ he⟩
  rw [List.getLast?_eq_getElem?]
  exact List.getElem?_eq_getElem (by omega)

/-- A step with an event is the first one of its call. -/
theorem Inv.event_once (hi : Inv h s) {a : Act ι T} {e : Event T} (hs : (step s a).isSome)
    (he : event s a = some (i, e)) : e.before (linked i h) (taken i h) = none := by
  obtain rfl := event_thread he
  cases a with
  | push => cases he
  | tryPop => cases he
  | finish => cases he
  | step j sp o =>
    have htold := hi.told j
    simp only [step] at hs
    split at hs
    · cases hs
    · next item pc hpc =>
      obtain ⟨s', hs⟩ := Option.isSome_iff_exists.1 hs
      obtain ⟨⟨q', pc'⟩, hx, -⟩ := Option.map_eq_some_iff.1 hs
      have hok : PcOk s.q (.push item pc) := hpc ▸ hi.ok j
      unfold event at he
      simp only [hpc] at he htold
      split at he
      · next heq =>
        obtain ⟨rfl, rfl⟩ := Pc.push.inj heq
        split at he
        · obtain ⟨-, rfl⟩ := Prod.mk.inj (Option.some.inj he)
          exact htold
        · cases he
      · next heq => cases heq
      · cases he
    · next pc hpc =>
      obtain ⟨s', hs⟩ := Option.isSome_iff_exists.1 hs
      obtain ⟨⟨q', pc'⟩, hx, -⟩ := Option.map_eq_some_iff.1 hs
      unfold event at he
      simp only [hpc] at he htold
      split at he
      · next heq => cases heq
      · next heq =>
        obtain rfl := Pc.pop.inj heq
        split at he
        · obtain ⟨item, -, he⟩ := Option.map_eq_some_iff.1 he
          obtain ⟨-, rfl⟩ := Prod.mk.inj he
          exact htold
        · cases he
      · cases he

/-- Only the read of a null `next` decides for `nullopt`. -/
theorem empty_only {sp : Bool} {o : Ptr} {s' : State ι T} (hs : step s (.step i sp o) = some s')
    (he : s'.pc i = .pop .empty) : ∃ n, s.pc i = .pop (.readNext n) ∧ (s.q.nodes n).next = none := by
  simp only [step] at hs
  split at hs
  · cases hs
  · obtain ⟨⟨q', pc'⟩, -, rfl⟩ := Option.map_eq_some_iff.1 hs
    replace he := (update_self ..).symm.trans he
    cases he
  · next pc hpc =>
    obtain ⟨⟨q', pc'⟩, hx, rfl⟩ := Option.map_eq_some_iff.1 hs
    replace he := (update_self ..).symm.trans he
    obtain rfl : pc' = .empty := Pc.pop.inj he
    cases pc with
    | readNext n =>
      refine ⟨n, hpc, ?_⟩
      simp only [popStep, Option.some.injEq, Prod.mk.injEq] at hx
      split at hx
      · assumption
      · exact absurd hx.2 nofun
    | casHead n next =>
      simp only [popStep] at hx
      split at hx <;> exact absurd (Prod.mk.inj (Option.some.inj hx)).2 nofun
    | loadHead =>
      obtain ⟨_, -, hx⟩ := Option.map_eq_some_iff.1 hx
      cases (Prod.mk.inj hx).2
    | readNext2 n => cases (Prod.mk.inj (Option.some.inj hx)).2
    | readNext3 n =>
      obtain ⟨_, -, hx⟩ := Option.map_eq_some_iff.1 hx
      cases (Prod.mk.inj hx).2
    | moveValue n nh =>
      obtain ⟨_, -, hx⟩ := Option.map_eq_some_iff.1 hx
      cases (Prod.mk.inj hx).2
    | subSize item => cases (Prod.mk.inj (Option.some.inj hx)).2
    | empty => cases hx
    | popped item => cases hx

/-- The node of a null `next` is the last one, and `head_` is not in front of it. -/
theorem Inv.empty_of_null (hi : Inv h s) {n : Nat} (hpc : s.pc i = .pop (.readNext n))
    (hn : (s.q.nodes n).next = none) : s.contents = [] := by
  have hok : PopOk s.q (.readNext n) := by
    have := hi.ok i
    rwa [hpc] at this
  obtain ⟨k, h1, h2⟩ := hok
  have h3 := hi.inv.last h2 hn
  have hlen := hi.inv.len
  exact List.drop_eq_nil_of_le (by omega)

theorem Inv.fifo (hi : Inv h s) : Fifo h s where
  sentinel := hi.first
  nodup := hi.inv.nodup
  follows := hi.inv.next
  head := by
    have hget := List.getElem?_eq_getElem hi.inv.taken_lt
    exact ⟨_, List.mem_of_getElem? hget, hi.inv.head.trans hget⟩
  tail := hi.tail_reaches
  order := by
    rw [hi.enqueued, hi.dequeued]
    exact List.take_append_drop ..
  behind k n hk := by
    rw [State.contents, List.getElem?_drop]
    exact hi.inv.vals _ n (by omega) (by rwa [Nat.add_right_comm])
  once a j e hs he := hi.event_once hs he
  pushed j item hpc := by
    have := hi.told j
    rw [hpc] at this
    exact this
  popped j item hpc := by
    have := hi.told j
    rw [hpc] at this
    exact this
  nothing j hpc := by
    have := hi.told j
    rw [hpc] at this
    exact this
  empty j n sp o hpc hn := by
    refine ⟨?_, hi.empty_of_null hpc hn⟩
    simp [step, hpc, popStep, hn, State.setPc]
  only j sp o s' hs he := empty_only hs he
  pushing j item pc outer hpc hp := links hi.toShape hpc hp

/-- In every run of any number of threads, the queue is a FIFO queue. -/
theorem linearizable (r : Run (system ι T) anyStep h s) : Fifo h s := by
  refine Inv.fifo (r.invariant (I := Inv) ?_ fun h s a s' hi _ hs => inv_step hi hs)
  rintro s rfl
  exact inv_init

end fifo

/-- Thread 1 has linked 7 and stops before it moves `tail_`; thread 0 helps, pushes 8 (its unassigned
`curr_tail` matches nothing, so `tail_` lags behind) and pops 7. -/
theorem linearizable_behind_stalled_push : ∃ (h : History (State (Fin 2) Nat) (Act (Fin 2) Nat))
    (s : State (Fin 2) Nat), Fifo h s ∧ s.pc 0 = .pop (.popped 7) ∧ s.contents = [8] := by
  obtain ⟨s, ⟨h, r⟩, hp⟩ := Reach.of_exec_any (system (Fin 2) Nat)
    ([Act.push 1 7] ++ List.replicate 3 (Act.step 1 false none) ++ [Act.push 0 8] ++
      List.replicate 9 (Act.step 0 false none) ++ [Act.finish 0, Act.tryPop 0] ++
      List.replicate 7 (Act.step 0 false none))
    (fun s => (s.pc 0 matches .pop (.popped 7)) && s.contents == [8]) (s := init) rfl (by decide)
  obtain ⟨h1, h2⟩ := (Bool.and_eq_true _ _).mp hp
  refine ⟨h, s, linearizable r, ?_, eq_of_beq h2⟩
  split at h1
  · assumption
  · cases h1

end LockFreeQueue
