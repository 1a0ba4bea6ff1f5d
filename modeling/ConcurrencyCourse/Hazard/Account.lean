import ConcurrencyCourse.Hazard.Manager
import ConcurrencyCourse.Lib.Threads

/-!
# Where the nodes of the stack are

`Effect` lists the steps. `State.places` is the account: every node that has been allocated is in the hands of its
`Push`, linked, in the hands of the thread that unlinked it, retired or deleted, in one of them and once
(`Account`). The two steps that delete keep the account as long as nobody relies on the node: see `Guards`.
-/

namespace Hazard

open Transition Function

variable {ι A : Type}

/-! ### What a step does -/

section effects

variable [DecidableEq ι] [DecidableEq A] [Fintype ι]

/-- Steps that only move the thread. -/
inductive Move (s : State ι A) (i : ι) : Pc A → Pc A → Prop where
  | empty (top : s.top = none) : Move s i .load .idle
  | load {t : Ptr A} (top : s.top = some t) : Move s i .load (.setGlobal t)
  | again {t : Ptr A} (other : sameAddr s.top t = false) : Move s i (.reload t) .load
  | next {p : Ptr A} {n : Node A} (node : s.heap p.addr = some n) : Move s i (.popNext p) (.popCas p n.next)
  | lost {p : Ptr A} {next : Option (Ptr A)} : Move s i (.popCas p next) .load
  | guarded {p : Ptr A} : Move s i (.testGlobal p) (.clearGlobal p)
  | unguarded {p : Ptr A} : Move s i (.testGlobal p) (.pushRetired p)
  | skip {it k size : Nat} : Move s i (.scan it k size) (.scan (it + 1) (k + 1) size)
  | found {it k size : Nat} {q : Ptr A} (turn : k < size / 2) (at_ : (s.retired i)[it]? = some q)
      (unguarded : sameAddr s.guardedGlobal q = false) : Move s i (.scan it k size) (.delete it k size)
  | finish {it k size : Nat} : Move s i (.scan it k size) .idle

inductive Effect (s : State ι A) : Act ι A → State ι A → Prop where
  | push {i : ι} {a : A} (idle : s.pc i = .idle) (free : s.heap a = none) :
      Effect s (.push i a) ((s.alloc a).setPc i (.pushLoad ⟨a, s.allocs⟩))
  | tryPop {i : ι} (idle : s.pc i = .idle) : Effect s (.tryPop i) (s.setPc i .makeMutator)
  | move {i : ι} {sp : Bool} {x : Pc A} (move : Move s i (s.pc i) x) : Effect s (.step i sp) (s.setPc i x)
  | write {i : ι} {sp : Bool} {p : Ptr A} {n : Node A} (at_ : s.pc i = .pushLoad p ∨ s.pc i = .pushCas p)
      (node : s.heap p.addr = some n) :
      Effect s (.step i sp) ((s.setNode p.addr { n with next := s.top }).setPc i (.pushCas p))
  | publish {i : ι} {sp : Bool} {p : Ptr A} {n : Node A} (at_ : s.pc i = .pushCas p)
      (node : s.heap p.addr = some n) :
      Effect s (.step i sp) (((s.setNode p.addr { n with next := s.top }).setTop (some p)).setPc i .idle)
  | makeMutator {i : ι} {sp : Bool} (at_ : s.pc i = .makeMutator) :
      Effect s (.step i sp) ((s.setMutator i).setPc i .load)
  | setGlobal {i : ι} {sp : Bool} {t : Ptr A} (at_ : s.pc i = .setGlobal t) :
      Effect s (.step i sp) ((s.setGlobal (some t)).setPc i (.setLocal t))
  | setLocal {i : ι} {sp : Bool} {t : Ptr A} (at_ : s.pc i = .setLocal t) :
      Effect s (.step i sp) ((s.setLocal i (some t)).setPc i (.reload t))
  | reload {i : ι} {sp : Bool} {t p : Ptr A} (at_ : s.pc i = .reload t) (top : s.top = some p)
      (same : p.addr = t.addr) : Effect s (.step i sp) (s.setPc i (.popNext p))
  | unlink {i : ι} {sp : Bool} {p : Ptr A} {next : Option (Ptr A)} (at_ : s.pc i = .popCas p next)
      (top : sameAddr s.top p = true) : Effect s (.step i sp) ((s.setTop next).setPc i (.removeLocal p))
  | removeLocal {i : ι} {sp : Bool} {p : Ptr A} (at_ : s.pc i = .removeLocal p) :
      Effect s (.step i sp)
        ((if sameAddr (s.guardedLocal i) p then s.setLocal i none else s).setPc i (.testGlobal p))
  | clearGlobal {i : ι} {sp : Bool} {p : Ptr A} (at_ : s.pc i = .clearGlobal p) :
      Effect s (.step i sp) ((s.setGlobal none).setPc i (.pushRetired p))
  | pushRetired {i : ι} {sp : Bool} {p : Ptr A} {x : Pc A} (at_ : s.pc i = .pushRetired p)
      (next : x = .idle ∨ ∃ size, x = .scan 0 0 size) :
      Effect s (.step i sp) ((s.setRetired i (pushRetired (s.retired i) p)).setPc i x)
  | delete {i : ι} {sp : Bool} {it k size : Nat} {q : Ptr A} (at_ : s.pc i = .delete it k size)
      (what : (s.retired i)[it]? = some q) :
      Effect s (.step i sp)
        (((s.free q).setRetired i ((s.retired i).eraseIdx it)).setPc i (.scan it (k + 1) size))
  | collect {i : ι} (idle : ∀ j, s.pc j = .idle) : Effect s (.collect i) (s.collect i)

theorem threadStep_effect {s s' : State ι A} {i : ι} {sp : Bool} (h : threadStep s i sp = some s') :
    Effect s (.step i sp) s' := by
  unfold threadStep at h
  cases hp : s.pc i <;> simp only [hp, reduceCtorEq] at h
  case pushLoad a =>
    obtain ⟨n, hn, rfl⟩ := Option.map_eq_some_iff.1 h
    exact .write (.inl hp) hn
  case pushCas a =>
    obtain ⟨n, hn, rfl⟩ := Option.map_eq_some_iff.1 h
    split
    · exact .publish hp hn
    · exact .write (.inr hp) hn
  case makeMutator =>
    obtain rfl := Option.some.inj h
    exact .makeMutator hp
  case load =>
    split at h <;> obtain rfl := Option.some.inj h
    · next ht => exact .move (by rw [hp]; exact .empty ht)
    · next t ht => exact .move (by rw [hp]; exact .load ht)
  case setGlobal t =>
    obtain rfl := Option.some.inj h
    exact .setGlobal hp
  case setLocal t =>
    obtain rfl := Option.some.inj h
    exact .setLocal hp
  case reload t =>
    split at h
    · next p ht =>
      obtain rfl := Option.some.inj h
      split
      · next hsame => exact .reload hp ht hsame
      · next hne => exact .move (by rw [hp]; exact .again (by simp [sameAddr, ht, hne]))
    · next ht =>
      obtain rfl := Option.some.inj h
      exact .move (by rw [hp]; exact .again (by simp [sameAddr, ht]))
  case popNext p =>
    obtain ⟨n, hn, rfl⟩ := Option.map_eq_some_iff.1 h
    exact .move (by rw [hp]; exact .next hn)
  case popCas p next =>
    split at h <;> obtain rfl := Option.some.inj h
    · next hc => exact .unlink hp hc.2
    · exact .move (by rw [hp]; exact .lost)
  case removeLocal p =>
    obtain rfl := Option.some.inj h
    exact .removeLocal hp
  case testGlobal p =>
    obtain rfl := Option.some.inj h
    refine .move ?_
    rw [hp]
    split
    · exact .guarded
    · exact .unguarded
  case clearGlobal p =>
    obtain rfl := Option.some.inj h
    exact .clearGlobal hp
  case pushRetired p =>
    obtain rfl := Option.some.inj h
    refine .pushRetired hp ?_
    split
    · exact .inr ⟨_, rfl⟩
    · exact .inl rfl
  case scan it k size =>
    split at h
    · next hk =>
      obtain ⟨q, hq, rfl⟩ := Option.map_eq_some_iff.1 h
      refine .move ?_
      rw [hp]
      split
      · exact .skip
      · next hg => exact .found hk hq (by simpa using hg)
    · obtain rfl := Option.some.inj h
      exact .move (by rw [hp]; exact .finish)
  case delete it k size =>
    obtain ⟨q, hq, rfl⟩ := Option.map_eq_some_iff.1 h
    exact .delete hp hq

theorem step_effect {s s' : State ι A} {a : Act ι A} (h : step s a = some s') : Effect s a s' := by
  cases a with
  | push i a =>
    simp only [step] at h
    split at h
    · next hc => obtain rfl := Option.some.inj h; exact .push hc.1 hc.2
    · cases h
  | tryPop i =>
    simp only [step] at h
    split at h
    · next hc => obtain rfl := Option.some.inj h; exact .tryPop hc
    · cases h
  | step i sp => exact threadStep_effect h
  | collect i =>
    simp only [step] at h
    split at h
    · next hc => obtain rfl := Option.some.inj h; exact .collect hc
    · cases h

end effects

/-! ### Where the nodes are -/

/-- The node in the hands of a thread: not linked yet, or unlinked and not retired yet. -/
def Pc.hand : Pc A → Option (Ptr A)
  | .pushLoad p | .pushCas p | .removeLocal p | .testGlobal p | .clearGlobal p | .pushRetired p => some p
  | _ => none

/-- 1 if it is node `k`. -/
def isNode (k : Nat) : Option (Ptr A) → Nat
  | some p => if p.id = k then 1 else 0
  | none => 0

/-- How often node `k` is in the list. -/
def ids (l : List (Ptr A)) (k : Nat) : Nat := (l.map Ptr.id).count k

/-- The pointer means the node that is at its address. -/
def Valid (heap : A → Option (Node A)) (p : Ptr A) : Prop := ∃ n, heap p.addr = some n ∧ n.id = p.id

/-- The list from a pointer along `next`. -/
def Linked (heap : A → Option (Node A)) : Option (Ptr A) → List (Ptr A) → Prop
  | t, [] => t = none
  | t, p :: l => t = some p ∧ ∃ n, heap p.addr = some n ∧ n.id = p.id ∧ Linked heap n.next l

def State.places [Fintype ι] (s : State ι A) (l : List (Ptr A)) (k : Nat) : Nat :=
  (∑ i, isNode k (s.pc i).hand) + ids l k + (∑ i, ids (s.retired i) k) + s.deleted.count k

structure Account [Fintype ι] (s : State ι A) (l : List (Ptr A)) : Prop where
  linked : Linked s.heap s.top l
  places : ∀ k, s.places l k = if k < s.allocs then 1 else 0
  hands : ∀ i p, (s.pc i).hand = some p → Valid s.heap p
  retired : ∀ i, ∀ p ∈ s.retired i, Valid s.heap p
  live : ∀ a n, s.heap a = some n → n.id < s.allocs ∧ n.id ∉ s.deleted
  inj : ∀ a b n m, s.heap a = some n → s.heap b = some m → n.id = m.id → a = b

section lists

variable {heap heap' : A → Option (Node A)}

theorem Valid.eq_of_addr {p q : Ptr A} (hp : Valid heap p) (hq : Valid heap q) (h : p.addr = q.addr) : p = q := by
  obtain ⟨n, hn, hnp⟩ := hp
  obtain ⟨m, hm, hmq⟩ := hq
  rw [h, hm] at hn
  obtain rfl := Option.some.inj hn
  cases p; cases q
  simp only [Ptr.mk.injEq]
  exact ⟨h, hnp.symm.trans hmq⟩

theorem Linked.valid {l : List (Ptr A)} : ∀ {t : Option (Ptr A)}, Linked heap t l → ∀ p ∈ l, Valid heap p := by
  induction l with
  | nil => intro t _ p hp; cases hp
  | cons q l ih =>
    rintro t ⟨-, n, hn, hid, hl⟩ p hp
    rcases List.mem_cons.1 hp with rfl | hp
    · exact ⟨n, hn, hid⟩
    · exact ih hl p hp

/-- Writes elsewhere leave the list alone. -/
theorem Linked.congr {l : List (Ptr A)} : ∀ {t : Option (Ptr A)}, Linked heap t l →
    (∀ p ∈ l, heap' p.addr = heap p.addr) → Linked heap' t l := by
  induction l with
  | nil => intro t h _; exact h
  | cons q l ih =>
    rintro t ⟨ht, n, hn, hid, hl⟩ h
    refine ⟨ht, n, (h q (.head _)).trans hn, hid, ih hl fun p hp => h p (.tail _ hp)⟩

theorem ids_pos {l : List (Ptr A)} {p : Ptr A} (h : p ∈ l) : 0 < ids l p.id :=
  List.count_pos_iff.2 (List.mem_map_of_mem h)

theorem ids_append (l l' : List (Ptr A)) (k : Nat) : ids (l ++ l') k = ids l k + ids l' k := by
  simp only [ids, List.map_append, List.count_append]

theorem ids_singleton (p : Ptr A) (k : Nat) : ids [p] k = isNode k (some p) := by
  simp only [ids, List.map_cons, List.map_nil, List.count_singleton, isNode, beq_iff_eq]

theorem ids_cons (p : Ptr A) (l : List (Ptr A)) (k : Nat) : ids (p :: l) k = isNode k (some p) + ids l k := by
  rw [← ids_singleton, ← ids_append]
  rfl

theorem ids_eraseIdx {l : List (Ptr A)} {it : Nat} {q : Ptr A} (h : l[it]? = some q) (k : Nat) :
    ids (l.eraseIdx it) k + isNode k (some q) = ids l k := by
  induction l generalizing it with
  | nil => cases h
  | cons p l ih =>
    cases it with
    | zero =>
      obtain rfl := Option.some.inj h
      rw [List.eraseIdx_cons_zero, ids_cons, Nat.add_comm]
    | succ it =>
      rw [List.eraseIdx_cons_succ, ids_cons, ids_cons, Nat.add_assoc, ih h]

@[simp] theorem isNode_self (p : Ptr A) : isNode p.id (some p) = 1 := if_pos rfl

theorem sameAddr_iff [DecidableEq A] {o : Option (Ptr A)} {p : Ptr A} :
    sameAddr o p = true ↔ ∃ q, o = some q ∧ q.addr = p.addr := by
  cases o with
  | none => simp [sameAddr]
  | some q => simp [sameAddr]

end lists

section account

variable [Fintype ι] {s s' : State ι A} {l : List (Ptr A)}

theorem Account.le_one (hi : Account s l) (k : Nat) : s.places l k ≤ 1 := by
  rw [hi.places k]
  split <;> omega

theorem Account.once (hi : Account s l) : s.deleted.Nodup := by
  rw [Multiset.nodup_iff_count_le_one]
  intro k
  have h := hi.le_one k
  unfold State.places at h
  omega

theorem Account.eq_of_id (hi : Account s l) {p q : Ptr A} (hp : Valid s.heap p) (hq : Valid s.heap q)
    (h : p.id = q.id) : p = q := by
  obtain ⟨n, hn, hnp⟩ := hp
  obtain ⟨m, hm, hmq⟩ := hq
  have haddr := hi.inj _ _ n m hn hm (hnp.trans (h.trans hmq.symm))
  cases p; cases q
  simp only [Ptr.mk.injEq]
  exact ⟨haddr, h⟩

/-- A node in the hands of a thread is not linked. -/
theorem Account.hand_not_linked [DecidableEq ι] (hi : Account s l) {i : ι} {p : Ptr A} (hp : (s.pc i).hand = some p)
    {q : Ptr A} (hq : q ∈ l) : q.addr ≠ p.addr := by
  intro h
  have hqp := (hi.linked.valid q hq).eq_of_addr (hi.hands i p hp) h
  have hle := hi.le_one p.id
  have h1 := Threads.le_sum (fun i => isNode p.id (s.pc i).hand) i
  have h2 := ids_pos hq
  rw [hp, isNode_self] at h1
  rw [hqp] at h2
  unfold State.places at hle
  omega

/-- Nor retired. -/
theorem Account.hand_not_retired (hi : Account s l) {i j : ι} {p : Ptr A} (hp : (s.pc i).hand = some p)
    {q : Ptr A} (hq : q ∈ s.retired j) : q.addr ≠ p.addr := by
  intro h
  have hqp := (hi.retired j q hq).eq_of_addr (hi.hands i p hp) h
  have hle := hi.le_one p.id
  have h1 := Threads.le_sum (fun i => isNode p.id (s.pc i).hand) i
  have h2 := Threads.le_sum (fun i => ids (s.retired i) p.id) j
  have h3 := ids_pos hq
  rw [hp, isNode_self] at h1
  rw [hqp] at h3
  unfold State.places at hle
  omega

theorem Account.linked_not_retired (hi : Account s l) {j : ι} {p q : Ptr A} (hp : p ∈ l)
    (hq : q ∈ s.retired j) : p.id ≠ q.id := by
  intro h
  have hle := hi.le_one p.id
  have h1 := ids_pos hp
  have h2 := Threads.le_sum (fun i => ids (s.retired i) p.id) j
  have h3 := ids_pos hq
  rw [← h] at h3
  unfold State.places at hle
  omega

/-- A step that does not touch the nodes. -/
theorem Account.same (hi : Account s l) (hheap : s'.heap = s.heap) (htop : s'.top = s.top)
    (hret : s'.retired = s.retired) (hpc : ∀ j, (s'.pc j).hand = (s.pc j).hand) (hall : s'.allocs = s.allocs)
    (hdel : s'.deleted = s.deleted) : Account s' l where
  linked := by rw [hheap, htop]; exact hi.linked
  places k := by
    have h := hi.places k
    unfold State.places at h ⊢
    simpa only [hpc, hret, hdel, hall] using h
  hands i p hp := by
    rw [hheap]
    exact hi.hands i p ((hpc i).symm.trans hp)
  retired i p hp := by
    rw [hheap]
    rw [hret] at hp
    exact hi.retired i p hp
  live a n h := by
    rw [hheap] at h
    rw [hall, hdel]
    exact hi.live a n h
  inj a b n m h h' := by
    rw [hheap] at h h'
    exact hi.inj a b n m h h'

variable [DecidableEq ι]

theorem places_setPc {i : ι} {x : Pc A} (k : Nat) :
    (s.setPc i x).places l k + isNode k (s.pc i).hand = s.places l k + isNode k x.hand := by
  have h := Threads.sum_update_add (fun x : Pc A => isNode k x.hand) s.pc i x
  simp only [State.places, State.setPc] at h ⊢
  omega

theorem Account.setPc (hi : Account s l) {i : ι} {x y : Pc A} (hy : s.pc i = y) (h : x.hand = y.hand) :
    Account (s.setPc i x) l := by
  refine hi.same rfl rfl rfl (fun j => ?_) rfl rfl
  change (update s.pc i x j).hand = _
  rcases eq_or_ne j i with rfl | hne
  · rw [update_self, h, hy]
  · rw [update_of_ne hne]

variable [DecidableEq A]

omit [Fintype ι] [DecidableEq ι] in
theorem Valid.update {heap : A → Option (Node A)} {p : Ptr A} (hp : Valid heap p) {a : A}
    {o : Option (Node A)} (h : p.addr ≠ a) : Valid (update heap a o) p := by
  obtain ⟨n, hn, hid⟩ := hp
  exact ⟨n, (update_of_ne h ..).trans hn, hid⟩

omit [Fintype ι] [DecidableEq ι] [DecidableEq A] in
theorem Valid.addr_ne {heap : A → Option (Node A)} {p : Ptr A} (hp : Valid heap p) {a : A} (ha : heap a = none) :
    p.addr ≠ a := by
  rintro rfl
  obtain ⟨n, hn, -⟩ := hp
  cases ha.symm.trans hn

theorem Account.push (hi : Account s l) {i : ι} {a : A} (hidle : s.pc i = .idle) (hfree : s.heap a = none) :
    Account ((s.alloc a).setPc i (.pushLoad ⟨a, s.allocs⟩)) l := by
  have hnew : s.places l s.allocs = 0 := (hi.places _).trans (if_neg (Nat.lt_irrefl _))
  have hheap : ∀ p : Ptr A, Valid s.heap p → Valid (update s.heap a (some ⟨none, s.allocs⟩)) p :=
    fun p hp => hp.update (hp.addr_ne hfree)
  constructor
  · exact hi.linked.congr fun p hp => update_of_ne ((hi.linked.valid p hp).addr_ne hfree) ..
  · intro k
    have h := places_setPc (s := s.alloc a) (l := l) (i := i) (x := .pushLoad ⟨a, s.allocs⟩) k
    have hk := hi.places k
    have h0 : isNode k ((s.alloc a).pc i).hand = 0 := by
      rw [show (s.alloc a).pc i = .idle from hidle]
      rfl
    have hs : (s.alloc a).places l k = s.places l k := rfl
    have h1 : isNode k (Pc.pushLoad (⟨a, s.allocs⟩ : Ptr A)).hand = if s.allocs = k then 1 else 0 := rfl
    change _ = if k < s.allocs + 1 then 1 else 0
    rw [h0, hs, h1, hk] at h
    rw [Nat.add_zero] at h
    rw [h]
    by_cases hlt : k < s.allocs
    · rw [if_pos hlt, if_neg (by omega), if_pos (by omega)]
    · by_cases heq : s.allocs = k
      · rw [if_neg hlt, if_pos heq, if_pos (by omega)]
      · rw [if_neg hlt, if_neg heq, if_neg (by omega)]
  · intro j p hp
    change (update s.pc i (.pushLoad ⟨a, s.allocs⟩) j).hand = some p at hp
    rcases eq_or_ne j i with rfl | hne
    · rw [update_self] at hp
      obtain rfl := Option.some.inj hp
      exact ⟨_, update_self .., rfl⟩
    · rw [update_of_ne hne] at hp
      exact hheap p (hi.hands j p hp)
  · exact fun j p hp => hheap p (hi.retired j p hp)
  · intro b n hn
    change update s.heap a (some ⟨none, s.allocs⟩) b = some n at hn
    change n.id < s.allocs + 1 ∧ n.id ∉ s.deleted
    rcases eq_or_ne b a with rfl | hne
    · rw [update_self] at hn
      obtain rfl := Option.some.inj hn
      refine ⟨Nat.lt_succ_self _, fun hd => ?_⟩
      have hpos : 0 < s.deleted.count s.allocs := Multiset.count_pos.2 hd
      unfold State.places at hnew
      exact absurd hnew (by omega)
    · rw [update_of_ne hne] at hn
      have h := hi.live b n hn
      exact ⟨Nat.lt_succ_of_lt h.1, h.2⟩
  · intro b c n m hn hm hid
    change update s.heap a (some ⟨none, s.allocs⟩) b = some n at hn
    change update s.heap a (some ⟨none, s.allocs⟩) c = some m at hm
    rcases eq_or_ne b a with rfl | hb <;> rcases eq_or_ne c b with rfl | hc
    · rfl
    · rw [update_self] at hn
      rw [update_of_ne hc] at hm
      obtain rfl := Option.some.inj hn
      exact absurd hid (Nat.ne_of_gt (hi.live c m hm).1)
    · rfl
    · rw [update_of_ne hb] at hn
      rcases eq_or_ne c a with rfl | hca
      · rw [update_self] at hm
        obtain rfl := Option.some.inj hm
        exact absurd hid (Nat.ne_of_lt (hi.live b n hn).1)
      · rw [update_of_ne hca] at hm
        exact hi.inj b c n m hn hm hid

/-- A write to the `next` of the node in one's hands. -/
theorem Account.setNode (hi : Account s l) {i : ι} {p : Ptr A} (hp : (s.pc i).hand = some p) {n : Node A}
    (hn : s.heap p.addr = some n) (next : Option (Ptr A)) :
    Account (s.setNode p.addr { n with next := next }) l ∧
      ∀ q, Valid s.heap q → Valid (s.setNode p.addr { n with next := next }).heap q := by
  have hid : ∀ a m, update s.heap p.addr (some { n with next := next }) a = some m →
      ∃ m', s.heap a = some m' ∧ m'.id = m.id := by
    intro a m hm
    rcases eq_or_ne a p.addr with rfl | hne
    · rw [update_self] at hm
      obtain rfl := Option.some.inj hm
      exact ⟨n, hn, rfl⟩
    · rw [update_of_ne hne] at hm
      exact ⟨m, hm, rfl⟩
  have hvalid : ∀ q, Valid s.heap q → Valid (update s.heap p.addr (some { n with next := next })) q := by
    rintro q ⟨m, hm, hmq⟩
    by_cases hne : q.addr = p.addr
    · rw [hne, hn] at hm
      obtain rfl := Option.some.inj hm
      refine ⟨{ n with next := next }, ?_, hmq⟩
      rw [hne, update_self]
    · exact ⟨m, (update_of_ne hne ..).trans hm, hmq⟩
  refine ⟨⟨?_, hi.places, fun j q hq => hvalid q (hi.hands j q hq), fun j q hq => hvalid q (hi.retired j q hq),
    ?_, ?_⟩, hvalid⟩
  · exact hi.linked.congr fun q hq => update_of_ne (hi.hand_not_linked hp hq) ..
  · intro a m hm
    obtain ⟨m', hm', h⟩ := hid a m hm
    rw [← h]
    exact hi.live a m' hm'
  · intro a b m m₂ hm hm₂ h
    obtain ⟨m', hm', h₁⟩ := hid a m hm
    obtain ⟨m'', hm'', h₂⟩ := hid b m₂ hm₂
    exact hi.inj a b m' m'' hm' hm'' (h₁.trans (h.trans h₂.symm))

omit [DecidableEq A] in
/-- The CAS of `Push`. -/
theorem Account.publish (hi : Account s l) {i : ι} {p : Ptr A} (hp : s.pc i = .pushCas p) {n : Node A}
    (hn : s.heap p.addr = some n) (hnext : n.next = s.top) :
    Account ((s.setTop (some p)).setPc i .idle) (p :: l) := by
  obtain ⟨m, hm, hid⟩ := hi.hands i p (by rw [hp]; rfl)
  rw [hn] at hm
  obtain rfl := Option.some.inj hm
  refine ⟨⟨rfl, n, hn, hid, hnext ▸ hi.linked⟩, fun k => ?_, fun j q hq => ?_, hi.retired, hi.live, hi.inj⟩
  · have h := places_setPc (s := s.setTop (some p)) (l := p :: l) (i := i) (x := .idle) k
    have h0 : isNode k ((s.setTop (some p)).pc i).hand = isNode k (some p) :=
      congrArg (fun x : Pc A => isNode k x.hand) hp
    have h1 : isNode k (Pc.idle : Pc A).hand = 0 := rfl
    have hs : (s.setTop (some p)).places (p :: l) k = s.places l k + isNode k (some p) := by
      simp only [State.places, State.setTop, ids_cons]
      omega
    rw [h0, hs, h1] at h
    exact (by omega : _ = s.places l k).trans (hi.places k)
  · change (update s.pc i .idle j).hand = some q at hq
    rcases eq_or_ne j i with rfl | hne
    · rw [update_self] at hq
      cases hq
    · rw [update_of_ne hne] at hq
      exact hi.hands j q hq

/-- The CAS of `TryPop`, with the `next` of the node that is still there. -/
theorem Account.unlink (hi : Account s l) {i : ι} {p : Ptr A} {next : Option (Ptr A)}
    (hp : s.pc i = .popCas p next) (htop : sameAddr s.top p = true) (hvalid : Valid s.heap p)
    (hnext : ∀ n, s.heap p.addr = some n → n.next = next) :
    ∃ l', l = p :: l' ∧ Account ((s.setTop next).setPc i (.removeLocal p)) l' := by
  obtain ⟨t, ht, haddr⟩ := sameAddr_iff.1 htop
  cases l with
  | nil => cases hi.linked.symm.trans ht
  | cons q l' =>
    have hq := hi.linked.1
    obtain rfl := Option.some.inj (ht.symm.trans hq)
    obtain rfl := (hi.linked.valid t (.head _)).eq_of_addr hvalid haddr
    obtain ⟨-, n, hn, hid, hl'⟩ := hi.linked
    refine ⟨l', rfl, ?_, fun k => ?_, fun j q hq => ?_, hi.retired, hi.live, hi.inj⟩
    · rw [hnext n hn] at hl'
      exact hl'
    · have h := places_setPc (s := s.setTop next) (l := l') (i := i) (x := .removeLocal t) k
      have h0 : isNode k ((s.setTop next).pc i).hand = 0 := congrArg (fun x : Pc A => isNode k x.hand) hp
      have h1 : isNode k (Pc.removeLocal t).hand = isNode k (some t) := rfl
      have hs : (s.setTop next).places l' k + isNode k (some t) = s.places (t :: l') k := by
        simp only [State.places, State.setTop, ids_cons]
        omega
      rw [h0, h1] at h
      exact (by omega : _ = s.places (t :: l') k).trans (hi.places k)
    · change (update s.pc i (.removeLocal t) j).hand = some q at hq
      rcases eq_or_ne j i with rfl | hne
      · rw [update_self] at hq
        obtain rfl := Option.some.inj hq
        exact hvalid
      · rw [update_of_ne hne] at hq
        exact hi.hands j q hq

omit [Fintype ι] [DecidableEq ι] in
theorem pushRetired_new {l : List (Ptr A)} {p : Ptr A} (h : ∀ q ∈ l, q.addr ≠ p.addr) :
    Hazard.pushRetired l p = l ++ [p] := by
  unfold Hazard.pushRetired
  rw [if_neg]
  rintro ⟨q, hq, hqp⟩
  exact h q hq hqp

omit [DecidableEq A] in
theorem Account.pushRetired (hi : Account s l) {i : ι} {p : Ptr A} (hp : s.pc i = .pushRetired p) {x : Pc A}
    (hx : x.hand = none) : Account ((s.setRetired i (s.retired i ++ [p])).setPc i x) l := by
  have hand : (s.pc i).hand = some p := by rw [hp]; rfl
  refine ⟨hi.linked, fun k => ?_, fun j q hq => ?_, fun j q hq => ?_, hi.live, hi.inj⟩
  · have h := places_setPc (s := s.setRetired i (s.retired i ++ [p])) (l := l) (i := i) (x := x) k
    have hr := Threads.sum_update_add (fun l => ids l k) s.retired i (s.retired i ++ [p])
    have h0 : isNode k ((s.setRetired i (s.retired i ++ [p])).pc i).hand = isNode k (some p) :=
      congrArg (isNode k) hand
    have h1 : isNode k x.hand = 0 := by rw [hx]; rfl
    rw [ids_append, ids_singleton] at hr
    rw [h0, h1] at h
    have hs : (s.setRetired i (s.retired i ++ [p])).places l k = s.places l k + isNode k (some p) := by
      simp only [State.places, State.setRetired] at hr ⊢
      omega
    exact (by omega : _ = s.places l k).trans (hi.places k)
  · change (update s.pc i x j).hand = some q at hq
    rcases eq_or_ne j i with rfl | hne
    · rw [update_self, hx] at hq
      cases hq
    · rw [update_of_ne hne] at hq
      exact hi.hands j q hq
  · change q ∈ update s.retired i (s.retired i ++ [p]) j at hq
    rcases eq_or_ne j i with rfl | hne
    · rw [update_self] at hq
      rcases List.mem_append.1 hq with hq | hq
      · exact hi.retired j q hq
      · rw [List.mem_singleton.1 hq]
        exact hi.hands j p hand
    · rw [update_of_ne hne] at hq
      exact hi.retired j q hq

omit [DecidableEq A] in
/-- A retired node is in one list, and there once. -/
theorem Account.retired_once (hi : Account s l) {i j : ι} {it : Nat} {p q : Ptr A}
    (hq : (s.retired i)[it]? = some q) (hp : p ∈ update s.retired i ((s.retired i).eraseIdx it) j) :
    p ∈ s.retired j ∧ p.id ≠ q.id := by
  have hle := hi.le_one q.id
  have herase := ids_eraseIdx hq q.id
  rw [isNode_self] at herase
  unfold State.places at hle
  rcases eq_or_ne j i with rfl | hne
  · rw [update_self] at hp
    refine ⟨List.mem_of_mem_eraseIdx hp, fun h => ?_⟩
    have hpos := ids_pos hp
    have hsum := Threads.le_sum (fun j => ids (s.retired j) q.id) j
    rw [h] at hpos
    omega
  · rw [update_of_ne hne] at hp
    refine ⟨hp, fun h => ?_⟩
    have hpos := ids_pos hp
    have hsum := Threads.add_le_sum (fun j => ids (s.retired j) q.id) hne
    rw [h] at hpos
    omega

theorem Account.delete (hi : Account s l) {i : ι} {it k size : Nat} {q : Ptr A} (hp : s.pc i = .delete it k size)
    (hq : (s.retired i)[it]? = some q) :
    Account (((s.free q).setRetired i ((s.retired i).eraseIdx it)).setPc i (.scan it (k + 1) size)) l ∧
      ∀ p, Valid s.heap p → p.id ≠ q.id → Valid (update s.heap q.addr none) p := by
  have hmem : q ∈ s.retired i := List.mem_of_getElem? hq
  have hvq := hi.retired i q hmem
  have hvalid : ∀ p, Valid s.heap p → p.id ≠ q.id → Valid (update s.heap q.addr none) p := by
    intro p hp hne
    exact hp.update fun h => hne (congrArg Ptr.id (hp.eq_of_addr hvq h))
  refine ⟨⟨?_, fun k' => ?_, fun j p hj => ?_, fun j p hj => ?_, fun a n hn => ?_, ?_⟩, hvalid⟩
  · refine hi.linked.congr fun p hp => update_of_ne (fun h => ?_) ..
    exact hi.linked_not_retired hp hmem (congrArg Ptr.id ((hi.linked.valid p hp).eq_of_addr hvq h))
  · have h := places_setPc (s := (s.free q).setRetired i ((s.retired i).eraseIdx it)) (l := l) (i := i)
      (x := .scan it (k + 1) size) k'
    have hr := Threads.sum_update_add (fun l => ids l k') s.retired i ((s.retired i).eraseIdx it)
    have herase := ids_eraseIdx hq k'
    have hc : (q.id ::ₘ s.deleted).count k' = s.deleted.count k' + isNode k' (some q) := by
      rw [Multiset.count_cons, isNode]
      simp only [eq_comm]
    have h0 : isNode k' (((s.free q).setRetired i ((s.retired i).eraseIdx it)).pc i).hand = 0 :=
      congrArg (fun x : Pc A => isNode k' x.hand) hp
    have h1 : isNode k' (Pc.scan it (k + 1) size : Pc A).hand = 0 := rfl
    have hs : ((s.free q).setRetired i ((s.retired i).eraseIdx it)).places l k' = s.places l k' := by
      simp only [State.places, State.setRetired, State.free] at hr ⊢
      rw [hc]
      omega
    rw [h0, h1, hs] at h
    exact (Nat.add_right_cancel h).trans (hi.places k')
  · change (update s.pc i (.scan it (k + 1) size) j).hand = some p at hj
    rcases eq_or_ne j i with rfl | hne
    · rw [update_self] at hj
      cases hj
    · rw [update_of_ne hne] at hj
      exact (hi.hands j p hj).update (hi.hand_not_retired hj hmem).symm
  · obtain ⟨hj, hne⟩ := hi.retired_once hq hj
    exact hvalid p (hi.retired j p hj) hne
  · change update s.heap q.addr none a = some n at hn
    change n.id < s.allocs ∧ n.id ∉ q.id ::ₘ s.deleted
    rcases eq_or_ne a q.addr with rfl | hne
    · rw [update_self] at hn
      cases hn
    · rw [update_of_ne hne] at hn
      obtain ⟨hlt, hnot⟩ := hi.live a n hn
      refine ⟨hlt, fun h => ?_⟩
      rcases Multiset.mem_cons.1 h with h | h
      · obtain ⟨m, hm, hmq⟩ := hvq
        exact hne (hi.inj a q.addr n m hn hm (h.trans hmq.symm))
      · exact hnot h
  · intro a b n m hn hm hid
    change update s.heap q.addr none a = some n at hn
    change update s.heap q.addr none b = some m at hm
    rcases eq_or_ne a q.addr with rfl | ha
    · rw [update_self] at hn
      cases hn
    · rcases eq_or_ne b q.addr with rfl | hb
      · rw [update_self] at hm
        cases hm
      · rw [update_of_ne ha] at hn
        rw [update_of_ne hb] at hm
        exact hi.inj a b n m hn hm hid

omit [DecidableEq ι] in
theorem Account.deleteForAllThreads (hi : Account s l) (hidle : ∀ j, s.pc j = .idle) :
    Account s.deleteForAllThreads l ∧
      ∀ p, Valid s.heap p → (∀ j, ∀ q ∈ s.retired j, q.id ≠ p.id) → Valid s.deleteForAllThreads.heap p := by
  have hkeep : ∀ p, Valid s.heap p → (∀ j, ∀ q ∈ s.retired j, q.id ≠ p.id) →
      s.deleteForAllThreads.heap p.addr = s.heap p.addr := by
    intro p hp hne
    refine if_neg ?_
    rintro ⟨j, q, hq, haddr⟩
    exact hne j q hq (congrArg Ptr.id ((hi.retired j q hq).eq_of_addr hp haddr))
  have hsome : ∀ a n, s.deleteForAllThreads.heap a = some n →
      s.heap a = some n ∧ ∀ j, ∀ q ∈ s.retired j, q.addr ≠ a := by
    intro a n hn
    change (if ∃ i, ∃ q ∈ s.retired i, q.addr = a then none else s.heap a) = some n at hn
    split at hn
    · cases hn
    · next hno => exact ⟨hn, fun j q hq h => hno ⟨j, q, hq, h⟩⟩
  refine ⟨⟨?_, fun k => ?_, fun j p hj => ?_, fun j p hj => (by cases hj), fun a n hn => ?_, ?_⟩, fun p hp hne => ?_⟩
  · exact hi.linked.congr fun p hp => hkeep p (hi.linked.valid p hp) fun j q hq h =>
      hi.linked_not_retired hp hq h.symm
  · have hk := hi.places k
    unfold State.places at hk ⊢
    have hc : s.deleteForAllThreads.deleted.count k =
        s.deleted.count k + ∑ i, ids (s.retired i) k := by
      simp only [State.deleteForAllThreads, Multiset.count_add, Multiset.count_sum', Multiset.coe_count, ids]
    have hnil : ∑ i, ids (s.deleteForAllThreads.retired i) k = 0 := by
      simp only [State.deleteForAllThreads, ids, List.map_nil, List.count_nil, Finset.sum_const_zero]
    rw [hc, hnil]
    change (∑ i, isNode k (s.pc i).hand) + ids l k + 0 + _ = if k < s.allocs then 1 else 0
    omega
  · change (s.pc j).hand = some p at hj
    rw [hidle j] at hj
    cases hj
  · obtain ⟨hn, hno⟩ := hsome a n hn
    obtain ⟨hlt, hnot⟩ := hi.live a n hn
    refine ⟨hlt, fun h => ?_⟩
    rcases Multiset.mem_add.1 h with h | h
    · exact hnot h
    · obtain ⟨j, -, hj⟩ := Multiset.mem_sum.1 h
      obtain ⟨q, hq, hqn⟩ := List.mem_map.1 (Multiset.mem_coe.1 hj)
      obtain ⟨m, hm, hmq⟩ := hi.retired j q hq
      exact hno j q hq (hi.inj q.addr a m n hm hn (hmq.trans hqn))
  · intro a b n m hn hm hid
    exact hi.inj a b n m (hsome a n hn).1 (hsome b m hm).1 hid
  · have h := hkeep p hp hne
    obtain ⟨n, hn, hid⟩ := hp
    exact ⟨n, h.trans hn, hid⟩

end account

end Hazard
