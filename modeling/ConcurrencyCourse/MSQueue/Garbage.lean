import ConcurrencyCourse.Lib.Transition
import ConcurrencyCourse.MSQueue.Chain

/-!
# The lock-free queue: what `CollectGarbage` may free

The system of the queue's users in the strand: any number of threads in `Put`, one in `Take`.
`CollectGarbage` deletes the five oldest retired nodes when there are ten, without asking whether
a `Put` still has one of them in hand, or whether `tail_` still points to one. `new Node` may then
return the address of a deleted node, and a CAS that compares addresses does not see that this is
another node.

`stalled_put_reads_freed` is a run in which it goes wrong: a producer loads `tail_`, the others put
and take ten items, and the producer reads `curr_tail->next`. `safe_of_careful` is the converse: a
deleted node is only ever accessed after a step that is not `Careful`.

The histories of the queue (`chain`, `values`, `taken`) start here with the oldest node that is not
deleted: what `CollectGarbage` deletes, they forget.
-/

namespace MSQueue

open Transition Function

/-- A thread outside `Put` is at `done`, and so is the thread outside `Take`. -/
structure State (ι T : Type) where
  q : Queue T
  put : ι → PutPc
  take : TakePc T
  /-- The node in the thread's hand (`PutPc.uses`) was deleted since the thread got it; its address
  may belong to another node by now. No step depends on it. -/
  dangling : ι → Bool

inductive Act (ι T : Type) where
  /-- Thread `i` calls `Put(item)`; `new Node` returns the address of a deleted node, or a new one. -/
  | beginPut (i : ι) (item : T) (reused : Option Nat)
  | put (i : ι) (spurious : Bool) (outer : Ptr)
  /-- The consumer calls `Take()`. -/
  | beginTake
  | take (spurious : Bool)

/-! ### `new` and `delete` -/

section

variable {T : Type}

/-- `new Node{item}`: the queue and the address. -/
def Queue.alloc (q : Queue T) (item : T) : Option Nat → Option (Queue T × Nat)
  | none => some (q.newNode item, q.allocs)
  | some a =>
    if a ∈ q.freed then some ({ q.newNodeAt a item with freed := q.freed.filter (· ≠ a) }, a) else none

/-- The nodes that a step deletes; `CollectGarbage` puts them at the end of `freed`. -/
def Queue.deletedBy (q q' : Queue T) : List Nat := q'.freed.drop q.freed.length

/-- The histories without the `k` oldest nodes. -/
def Queue.forget (q : Queue T) (k : Nat) : Queue T :=
  { q with chain := q.chain.drop k, values := q.values.drop k, taken := q.taken - k }

/-- The node that the thread is going to read, to link behind or to store in `tail_`. -/
def PutPc.uses : PutPc → Option Nat
  | .readNext _ t | .readNext2 _ t | .link _ t => some t
  | .help _ _ next => next
  | .swing n => some n
  | .loadTail _ | .bump | .done => none

/-- The step leaves the thread with the node that it has in hand. -/
def PutPc.keeps : PutPc → Bool
  | .readNext _ _ => true
  | _ => false

/-- The step is a CAS that finds in `tail_` what it expects. -/
def PutPc.setsTail (q : Queue T) (spurious : Bool) (outer : Ptr) : PutPc → Bool
  | .help _ t _ => !spurious && q.tail == some t
  | .swing _ => q.tail == outer
  | _ => false

/-- `deleted_.push`, `CollectGarbage`. -/
def TakePc.retires : TakePc T → Bool
  | .retire _ _ => true
  | _ => false

end

variable {ι T : Type}

def State.setPut [DecidableEq ι] (s : State ι T) (i : ι) (r : Queue T × PutPc) : State ι T :=
  { s with q := r.1, put := update s.put i r.2
           dangling := update s.dangling i (s.dangling i && (s.put i).keeps) }

def State.setTake (s : State ι T) (r : Queue T × TakePc T) : State ι T :=
  { s with q := r.1.forget (s.q.deletedBy r.1).length, take := r.2
           dangling := fun i => s.dangling i || (s.put i).uses.any (s.q.deletedBy r.1).contains }

def step [DecidableEq ι] (s : State ι T) : Act ι T → Option (State ι T)
  | .beginPut i item reused => match s.put i with
    | .done => (s.q.alloc item reused).map fun r => s.setPut i (r.1, .loadTail r.2)
    | _ => none
  | .put i spurious outer => (putStep s.q spurious outer (s.put i)).map (s.setPut i)
  | .beginTake => match s.take with
    | .done _ => some { s with take := .loadHead }
    | _ => none
  | .take spurious => (takeStep s.q spurious s.take).map s.setTake

def init : State ι T := ⟨Queue.empty, fun _ => .done, .done none, fun _ => false⟩

def system (ι T : Type) [DecidableEq ι] : System (State ι T) (Act ι T) := ⟨fun s => s = init, step⟩

/-- No thread is about to access a deleted node. A `Put` does not even if the address of the node
that it has in hand was given to another node meanwhile; the nodes that the only `Take` has in hand
are deleted by nobody else. -/
def Safe (s : State ι T) : Prop :=
  (∀ i n, (s.put i).accesses = some n → n ∉ s.q.freed ∧ s.dangling i = false) ∧
    ∀ n, s.take.accesses = some n → n ∉ s.q.freed

/-- The steps that may go wrong do not. A `Take` that retires the tenth node: `tail_` and the
`curr_tail`s that a `Put` is about to read or to link behind are not among the five oldest ones. A CAS
of `tail_` that finds what it expects: the node that it stores (`curr_tail->next` in the loop, the
thread's own node at the end) was not deleted since the thread read or linked it. -/
def Careful (s : State ι T) : Act ι T → Prop
  | .take _ => s.take.retires = true → s.q.garbage.length = 9 →
      ∀ n ∈ s.q.garbage.take 5, s.q.tail ≠ some n ∧ ∀ i, (s.put i).accesses ≠ some n
  | .put i spurious outer => (s.put i).setsTail s.q spurious outer = true → s.dangling i = false
  | _ => True

/-! ## What is retired and what is deleted -/

theorem freeDownTo_eq (half : Nat) (gs freed : List Nat) :
    freeDownTo half gs freed =
      (gs.drop (gs.length - half), freed ++ gs.take (gs.length - half)) := by
  induction gs generalizing freed with
  | nil => simp [freeDownTo]
  | cons n gs ih =>
    simp only [freeDownTo]
    split
    · rename_i h
      have e : (n :: gs).length - half = (gs.length - half) + 1 := by
        simp only [List.length_cons] at h ⊢; omega
      rw [ih, e]
      simp
    · rename_i h
      have e : (n :: gs).length - half = 0 := by omega
      rw [e]
      simp

/-- The retired nodes that are not deleted are the first ones of the chain. -/
structure Retired (q : Queue T) (pc : TakePc T) : Prop where
  eq : q.garbage = q.chain.take (q.taken - pc.unretired)
  few : q.garbage.length ≤ 9

/-- What `retire` does to the two lists. -/
theorem retire_lists {q : Queue T} {n : Nat} (hf : q.garbage.length ≤ 9) :
    ∃ k, (q.retire n).freed = q.freed ++ (q.garbage ++ [n]).take k ∧
      (q.retire n).garbage = (q.garbage ++ [n]).drop k ∧ (q.retire n).garbage.length ≤ 9 ∧
      (k = 0 ∨ k = 5 ∧ q.garbage.length = 9) := by
  have hlen : (q.pushGarbage n).garbage.length = q.garbage.length + 1 := by
    simp [Queue.pushGarbage]
  by_cases h : (q.pushGarbage n).garbage.length < 10
  · rw [show q.retire n = q.pushGarbage n from if_pos h]
    exact ⟨0, (List.append_nil _).symm, rfl, by omega, .inl rfl⟩
  · have hl : q.garbage.length = 9 := by omega
    have he : (q.retire n).garbage = (q.garbage ++ [n]).drop 5 ∧
        (q.retire n).freed = q.freed ++ (q.garbage ++ [n]).take 5 := by
      constructor <;> rw [Queue.retire, Queue.collectGarbage, if_neg h] <;>
        simp only [freeDownTo_eq, hlen, hl] <;> rfl
    exact ⟨5, he.2, he.1, by rw [he.1]; simp [hl], .inr ⟨rfl, hl⟩⟩

theorem deletedBy_eq {q q' : Queue T} {l : List Nat} (h : q'.freed = q.freed ++ l) :
    q.deletedBy q' = l := by
  rw [Queue.deletedBy, h, List.drop_left]

section forget

variable {q : Queue T} {k : Nat}

theorem Queue.forget_zero (q : Queue T) : q.forget 0 = q := rfl

theorem mem_forget {n : Nat} (hn : n ∈ q.chain) (h : n ∉ q.chain.take k) : n ∈ (q.forget k).chain := by
  rw [← List.take_append_drop k q.chain, List.mem_append] at hn
  exact hn.resolve_left h

/-- The invariant is about the nodes that are left, if `head_` and `tail_` are among them. -/
theorem QInv.forget (hi : QInv q) (hk : k ≤ q.taken) (ht : ∀ t, q.tail = some t → t ∉ q.chain.take k) :
    QInv (q.forget k) where
  nodup := hi.nodup.sublist (List.drop_sublist _ _)
  lt n hn := hi.lt n (List.mem_of_mem_drop hn)
  head := by
    simp only [Queue.forget, List.getElem?_drop]
    rw [hi.head, Nat.add_sub_cancel' hk]
  taken_lt := by
    have := hi.taken_lt
    simp only [Queue.forget, List.length_drop]
    omega
  next i n h := by
    simp only [Queue.forget, List.getElem?_drop] at h ⊢
    exact hi.next _ _ h
  tail := by
    obtain ⟨t, hm, e⟩ := hi.tail
    exact ⟨t, mem_forget hm (ht t e), e⟩
  len := by
    have h1 := hi.len
    have h2 := hi.taken_le
    simp only [Queue.forget, List.length_drop]
    omega
  vals i n h1 h2 := by
    simp only [Queue.forget, List.getElem?_drop] at h1 h2 ⊢
    exact hi.vals (k + i) n (by omega) h2
  size := hi.size

end forget

/-! ## What a `Put` has in hand -/

/-- A `Put` whose node was not deleted: the node is in the chain. -/
def Holds (q : Queue T) : PutPc → Prop
  | .readNext _ t | .link _ t | .swing t => t ∈ q.chain
  | .readNext2 _ t => t ∈ q.chain ∧ (q.nodes t).next ≠ none
  | .help _ _ next => ∃ m ∈ q.chain, next = some m
  | .loadTail _ | .bump | .done => True

section holds

variable {q q' : Queue T} {pc pc' : PutPc}

theorem PutOk.holds (hi : QInv q) (h : PutOk q pc) : Holds q pc := by
  cases pc with
  | loadTail n => trivial
  | readNext n t => exact h.2
  | readNext2 n t => exact h.2
  | help n t next =>
    obtain ⟨-, h2, h3, h4⟩ := h
    obtain ⟨m, rfl⟩ := Option.ne_none_iff_exists'.1 h4
    exact ⟨m, hi.mem_of_next h2 h3, rfl⟩
  | link n t => exact h.2
  | swing n => exact h
  | bump => trivial
  | done => trivial

/-- The steps of a `Put`; it may be at `help` with a `curr_tail` that was deleted. -/
theorem Holds.step (hi : QInv q) (hh : Holds q pc) (hp : ∀ n, pc.priv = some n → Private q n) {sp : Bool}
    {o : Ptr} (h : putStep q sp o pc = some (q', pc')) : PutEffect q pc q' pc' ∧ Holds q' pc' := by
  have hok : PutOk q pc → PutEffect q pc q' pc' ∧ Holds q' pc' := fun hok =>
    have he := putStep_effect hi hok h
    ⟨he, (putStep_ok hi hok h).holds (he.inv hi)⟩
  cases pc with
  | loadTail n => exact hok (hp n rfl)
  | readNext n t => exact hok ⟨hp n rfl, hh⟩
  | readNext2 n t => exact hok ⟨hp n rfl, hh⟩
  | link n t => exact hok ⟨hp n rfl, hh⟩
  | swing n => exact hok hh
  | bump => exact hok trivial
  | done => exact hok trivial
  | help n t next =>
    obtain ⟨m, hm, rfl⟩ := hh
    obtain ⟨t₀, ht₀, htail⟩ := hi.tail
    simp only [putStep] at h
    split at h
    · obtain ⟨rfl, rfl⟩ := Prod.mk.inj (Option.some.inj h)
      exact ⟨.move hm rfl rfl, trivial⟩
    · simp only [htail, Option.map_some, Option.some.injEq, Prod.mk.injEq] at h
      obtain ⟨rfl, rfl⟩ := h
      exact ⟨.stay hi rfl rfl, ht₀⟩

/-- A `Put` whose node was deleted, if it does not store it in `tail_`. -/
theorem step_of_not_setsTail (hi : QInv q) (ha : pc.accesses = none) (hu : pc.uses ≠ none) {sp : Bool} {o : Ptr}
    (hc : pc.setsTail q sp o = false) (h : putStep q sp o pc = some (q', pc')) :
    PutEffect q pc q' pc' ∧ Holds q' pc' := by
  obtain ⟨t₀, ht₀, htail⟩ := hi.tail
  cases pc with
  | loadTail | bump | done => exact absurd rfl hu
  | readNext | readNext2 | link => cases ha
  | help n t next =>
    have hne : ¬ (sp = false ∧ q.tail = some t) := by
      rintro ⟨rfl, ht⟩
      simp [PutPc.setsTail, ht] at hc
    rw [putStep, if_neg hne, htail, Option.map_some, Option.some.injEq, Prod.mk.injEq] at h
    obtain ⟨rfl, rfl⟩ := h
    exact ⟨.stay hi rfl rfl, ht₀⟩
  | swing n =>
    have hne : q.tail ≠ o := fun e => by simp [PutPc.setsTail, e] at hc
    simp only [putStep, if_neg hne, Option.some.injEq, Prod.mk.injEq] at h
    obtain ⟨rfl, rfl⟩ := h
    exact ⟨.stay hi rfl rfl, trivial⟩

theorem Holds.mono (h : Holds q pc) (hg : Grows q q') : Holds q' pc := by
  cases pc with
  | loadTail | bump | done => trivial
  | readNext n t => exact hg.mem (n := t) h
  | link n t => exact hg.mem (n := t) h
  | swing n => exact hg.mem (n := n) h
  | readNext2 n t =>
    obtain ⟨m, hm⟩ := Option.ne_none_iff_exists'.1 h.2
    exact ⟨hg.mem h.1, by rw [hg.next t h.1 m hm]; simp⟩
  | help n t next =>
    obtain ⟨m, hm, rfl⟩ := h
    exact ⟨m, hg.mem hm, rfl⟩

theorem Holds.mem (h : Holds q pc) {n : Nat} (hn : pc.uses = some n) : n ∈ q.chain := by
  cases pc with
  | loadTail | bump | done => cases hn
  | readNext | link | swing => cases hn; exact h
  | readNext2 => cases hn; exact h.1
  | help n t next =>
    obtain ⟨m, hm, rfl⟩ := h
    cases hn
    exact hm

/-- A node that is left is still in hand. -/
theorem Holds.forget {k : Nat} (h : Holds q pc) (hn : ∀ n, pc.uses = some n → n ∉ q.chain.take k) :
    Holds (q.forget k) pc := by
  cases pc with
  | loadTail | bump | done => trivial
  | readNext n t => exact mem_forget h (hn t rfl)
  | link n t => exact mem_forget h (hn t rfl)
  | swing n => exact mem_forget h (hn n rfl)
  | readNext2 n t => exact ⟨mem_forget h.1 (hn t rfl), h.2⟩
  | help n t next =>
    obtain ⟨m, hm, rfl⟩ := h
    exact ⟨m, mem_forget hm (hn m rfl), rfl⟩

theorem PutPc.uses_of_accesses {n : Nat} (h : pc.accesses = some n) : pc.uses = some n := by
  cases pc <;> first | exact h | cases h

end holds

/-! ## The invariant -/

structure Inv (s : State ι T) : Prop where
  q : QInv s.q
  put : ∀ i, s.dangling i = false → Holds s.q (s.put i)
  take : TakeOk s.q s.take
  own : ∀ i n, (s.put i).priv = some n → Private s.q n ∧ n ∉ s.q.freed
  distinct : ∀ i j n, (s.put i).priv = some n → (s.put j).priv = some n → i = j
  retired : Retired s.q s.take
  freed : ∀ n ∈ s.q.freed, n < s.q.allocs ∧ n ∉ s.q.chain
  uses : ∀ i, s.dangling i = true → (s.put i).accesses = none ∧ (s.put i).uses ≠ none

theorem Retired.mono {q q' : Queue T} {pc : TakePc T} (hr : Retired q pc) (hi : QInv q)
    (hk : TakeKeeps q q') : Retired q' pc := by
  refine ⟨?_, hk.garbage ▸ hr.few⟩
  obtain ⟨l, hl⟩ := hk.chain
  have := hi.taken_lt
  rw [hk.garbage, hk.taken, hr.eq, ← hl, List.take_append_of_le_length (by omega)]

theorem inv_init : Inv (init : State ι T) where
  q := .empty
  put _ _ := trivial
  take := trivial
  own _ _ h := by cases h
  distinct _ _ _ h := by cases h
  retired := ⟨rfl, Nat.zero_le _⟩
  freed _ h := by cases h
  uses _ h := by cases h

/-- The distinct private nodes, after thread `i` moved. -/
theorem priv_update [DecidableEq ι] {put : ι → PutPc} {i : ι} {pc : PutPc}
    (h : ∀ i j n, (put i).priv = some n → (put j).priv = some n → i = j)
    (hpc : ∀ n, pc.priv = some n → ∀ j, j ≠ i → (put j).priv ≠ some n) :
    ∀ j k n, (update put i pc j).priv = some n → (update put i pc k).priv = some n → j = k := by
  intro j k n hj hk
  by_cases hji : j = i <;> by_cases hki : k = i
  · rw [hji, hki]
  · rw [hji, update_self] at hj
    rw [update_of_ne hki] at hk
    exact absurd hk (hpc n hj k hki)
  · rw [hki, update_self] at hk
    rw [update_of_ne hji] at hj
    exact absurd hj (hpc n hk j hji)
  · rw [update_of_ne hji] at hj
    rw [update_of_ne hki] at hk
    exact h j k n hj hk

/-! ### `new_node` -/

/-- What `new Node` leaves alone, at whatever address. -/
structure Allocates (q q' : Queue T) (a : Nat) : Prop where
  inv : QInv q'
  priv : Private q' a
  notMem : a ∉ q'.freed
  grows : Grows q q'
  chain : q'.chain = q.chain
  take : ∀ pc, TakeOk q pc → TakeOk q' pc
  retired : ∀ pc, Retired q pc → Retired q' pc
  freed : ∀ n ∈ q'.freed, n ∈ q.freed
  kept : ∀ n, Private q n → n ∉ q.freed → n ≠ a ∧ PrivateKept q q' n

theorem alloc_spec {q q' : Queue T} {item : T} {reused : Option Nat} {a : Nat} (hi : QInv q)
    (hf : ∀ n ∈ q.freed, n < q.allocs ∧ n ∉ q.chain) (h : q.alloc item reused = some (q', a)) :
    Allocates q q' a := by
  cases reused with
  | none =>
    obtain ⟨rfl, rfl⟩ := Prod.mk.inj (Option.some.inj h)
    have hk := takeKeeps_newNode hi item
    exact ⟨hi.newNode item, private_newNode hi item, fun h => Nat.lt_irrefl _ (hf _ h).1, hk.toGrows,
      rfl, fun _ h => h.mono hi hk, fun _ h => h.mono hi hk, fun _ h => h,
      fun n hn _ => ⟨Nat.ne_of_lt hn.lt, privateKept_newNode hn item⟩⟩
  | some b =>
    simp only [Queue.alloc] at h
    split at h
    · rename_i hb
      obtain ⟨rfl, rfl⟩ := Prod.mk.inj (Option.some.inj h)
      obtain ⟨hlt, hmem⟩ := hf b hb
      have hp := private_newNodeAt hlt hmem item
      have hk := takeKeeps_newNodeAt hmem item
      refine ⟨{ hi.newNodeAt hmem item with }, ⟨hp.lt, hp.notMem, hp.next, hp.value⟩, by simp,
        ⟨hk.chain, hk.allocs, hk.next⟩, rfl, fun pc h => ?_,
        fun pc h => ⟨(h.mono hi hk).eq, (h.mono hi hk).few⟩, fun n h => List.mem_of_mem_filter h,
        fun n hn hnf => ?_⟩
      · have h := h.mono hi hk
        cases pc <;> exact h
      · have hne : n ≠ b := fun e => hnf (e ▸ hb)
        exact ⟨hne, privateKept_newNodeAt hn hne item⟩
    · cases h

theorem Inv.beginPut [DecidableEq ι] {s : State ι T} (hi : Inv s) {i : ι} {item : T} {reused : Option Nat}
    {r : Queue T × Nat} (hpc : s.put i = .done) (h : s.q.alloc item reused = some r) :
    Inv (s.setPut i (r.1, .loadTail r.2)) := by
  obtain ⟨q', a⟩ := r
  have ha := alloc_spec hi.q hi.freed h
  have hother : ∀ {j}, j ≠ i → (s.setPut i (q', .loadTail a)).put j = s.put j ∧
      (s.setPut i (q', .loadTail a)).dangling j = s.dangling j := fun hj =>
    ⟨update_of_ne hj .., update_of_ne hj ..⟩
  have hput : (s.setPut i (q', .loadTail a)).put i = .loadTail a := update_self ..
  have hdang : (s.setPut i (q', .loadTail a)).dangling i = false := by
    simp [State.setPut, hpc, PutPc.keeps]
  refine ⟨ha.inv, fun j hj => ?_, ha.take _ hi.take, fun j n hn => ?_,
    priv_update hi.distinct fun n hn j _ hj => ?_, ha.retired _ hi.retired, fun n hn => ?_, fun j hj => ?_⟩
  · by_cases hji : j = i
    · subst hji; rw [hput]; trivial
    · rw [(hother hji).1]; exact (hi.put j ((hother hji).2 ▸ hj)).mono ha.grows
  · by_cases hji : j = i
    · subst hji
      rw [hput] at hn
      cases hn
      exact ⟨ha.priv, ha.notMem⟩
    · rw [(hother hji).1] at hn
      obtain ⟨hp, hf⟩ := hi.own j n hn
      exact ⟨hp.mono ha.grows (ha.kept n hp hf).2, fun h => hf (ha.freed n h)⟩
  · obtain ⟨hp, hf⟩ := hi.own j n hj
    cases hn
    exact (ha.kept _ hp hf).1 rfl
  · obtain ⟨hlt, hmem⟩ := hi.freed n (ha.freed n hn)
    exact ⟨lt_of_lt_of_le hlt ha.grows.allocs, ha.chain ▸ hmem⟩
  · by_cases hji : j = i
    · subst hji; rw [hdang] at hj; cases hj
    · rw [(hother hji).1]; exact hi.uses j ((hother hji).2 ▸ hj)

/-! ### Put -/

section put

variable {q q' : Queue T} {pc pc' : PutPc}

theorem PutPc.accesses_of_keeps (h : pc.keeps = true) : pc.accesses ≠ none := by
  cases pc with
  | readNext => exact Option.some_ne_none _
  | _ => cases h

/-- The thread's own node, as long as the step does not link it. -/
theorem PutEffect.privateKept_own (h : PutEffect q pc q' pc') {n : Nat} (hp : Private q n)
    (hn : pc'.priv = some n) : PrivateKept q q' n := by
  cases h with
  | move => exact ⟨hp.notMem, rfl⟩
  | link => cases hn
  | bump => cases hn

theorem PutEffect.mem_chain (h : PutEffect q pc q' pc') {n : Nat} (hn : n ∈ q'.chain) :
    n ∈ q.chain ∨ pc.priv = some n := by
  cases h with
  | move => exact .inl hn
  | bump => exact .inl hn
  | link => exact (List.mem_append.1 hn).imp_right fun h => congrArg some (List.mem_singleton.1 h).symm

end put

theorem Inv.put_step [DecidableEq ι] {s : State ι T} (hi : Inv s) {i : ι} {sp : Bool} {o : Ptr}
    {r : Queue T × PutPc} (hc : (s.put i).setsTail s.q sp o = true → s.dangling i = false)
    (h : putStep s.q sp o (s.put i) = some r) : Inv (s.setPut i r) := by
  obtain ⟨q', pc'⟩ := r
  obtain ⟨he, hh⟩ : PutEffect s.q (s.put i) q' pc' ∧ Holds q' pc' := by
    cases hd : s.dangling i with
    | false => exact (hi.put i hd).step hi.q (fun n hn => (hi.own i n hn).1) h
    | true =>
      obtain ⟨ha, hu⟩ := hi.uses i hd
      refine step_of_not_setsTail hi.q ha hu ?_ h
      cases hs : (s.put i).setsTail s.q sp o with
      | false => rfl
      | true => rw [hc hs] at hd; cases hd
  have hk := he.takeKeeps
  have hkept : (s.put i).keeps = true → s.dangling i = false := by
    intro hkp
    cases hd : s.dangling i with
    | false => rfl
    | true =>
      exact absurd (hi.uses i hd).1 (PutPc.accesses_of_keeps hkp)
  have hdang : (s.setPut i (q', pc')).dangling i = false := by
    simp only [State.setPut, update_self]
    cases hkp : (s.put i).keeps with
    | false => simp
    | true => simp [hkept hkp]
  have hother : ∀ {j}, j ≠ i → (s.setPut i (q', pc')).put j = s.put j ∧
      (s.setPut i (q', pc')).dangling j = s.dangling j := fun hj =>
    ⟨update_of_ne hj .., update_of_ne hj ..⟩
  have hput : (s.setPut i (q', pc')).put i = pc' := update_self ..
  refine ⟨he.inv hi.q, fun j hj => ?_, hi.take.mono hi.q hk, fun j n hn => ?_,
    priv_update hi.distinct fun n hn j hj hjn => hj (hi.distinct j i n hjn (he.priv_eq hn)),
    hi.retired.mono hi.q hk, fun n hn => ?_, fun j hj => ?_⟩
  · by_cases hji : j = i
    · subst hji; rwa [hput]
    · rw [(hother hji).1]; exact (hi.put j ((hother hji).2 ▸ hj)).mono hk.toGrows
  · by_cases hji : j = i
    · subst hji
      rw [hput] at hn
      obtain ⟨hp, hf⟩ := hi.own j n (he.priv_eq hn)
      exact ⟨hp.mono hk.toGrows (he.privateKept_own hp hn), hk.freed ▸ hf⟩
    · rw [(hother hji).1] at hn
      obtain ⟨hp, hf⟩ := hi.own j n hn
      exact ⟨hp.mono hk.toGrows (he.privateKept hp fun e => hji (hi.distinct j i n hn e)), hk.freed ▸ hf⟩
  · have hn : n ∈ s.q.freed := hk.freed ▸ hn
    obtain ⟨hlt, hmem⟩ := hi.freed n hn
    refine ⟨lt_of_lt_of_le hlt hk.allocs, fun hc => ?_⟩
    rcases he.mem_chain hc with h | h
    · exact hmem h
    · exact (hi.own i n h).2 hn
  · by_cases hji : j = i
    · subst hji; rw [hdang] at hj; cases hj
    · rw [(hother hji).1]; exact hi.uses j ((hother hji).2 ▸ hj)

/-! ### Take -/

/-- A step of the `Take` deletes the oldest nodes, if it retires the tenth. -/
theorem TakeEffect.deleted {q q' : Queue T} {pc pc' : TakePc T} (hi : QInv q) (hr : Retired q pc)
    (ht : TakeOk q pc) (h : TakeEffect q pc q' pc') :
    (q'.freed = q.freed ∧ Retired q' pc') ∨
      ∃ h₀ item, pc = .retire h₀ item ∧ q' = q.retire h₀ ∧ pc' = .subSize item ∧ q.garbage.length = 9 ∧
        q.taken = 10 ∧ q'.freed = q.freed ++ q.chain.take 5 ∧ q.garbage.take 5 = q.chain.take 5 ∧
        q'.garbage = (q.chain.take 10).drop 5 := by
  cases h with
  | stay retired => exact .inl ⟨rfl, by rw [retired]; exact hr.eq, hr.few⟩
  | advance => exact .inl ⟨rfl, hr.eq, hr.few⟩
  | moveOut => exact .inl ⟨rfl, hr.eq, hr.few⟩
  | subSize => exact .inl ⟨rfl, hr.eq, hr.few⟩
  | @retire h₀ item =>
    obtain ⟨j, h1, h2, -⟩ := ht
    obtain ⟨k, hf, hg, hfew, hk⟩ := retire_lists (n := h₀) hr.few
    have hall : q.garbage ++ [h₀] = q.chain.take q.taken := by
      rw [hr.eq, h1]
      simp only [TakePc.unretired, Nat.add_sub_cancel]
      rw [List.take_add_one, h2]
      rfl
    have htaken : (q.retire h₀).taken = q.taken := (retire_histories q h₀).2.1
    rw [hall] at hf hg
    rcases hk with rfl | ⟨rfl, h9⟩
    · refine .inl ⟨by simpa using hf, ?_, hfew⟩
      rw [hg, retire_chain, htaken]
      rfl
    · have h10 : q.taken = 10 := by
        have := congrArg List.length hall
        have := hi.taken_lt
        simp only [List.length_append, List.length_singleton, List.length_take] at *
        omega
      rw [h10] at hall hf hg
      have h5 : q.garbage.take 5 = q.chain.take 5 := by
        have := congrArg (List.take 5) hall
        rwa [List.take_append_of_le_length (by omega), List.take_take, min_eq_left (by omega)] at this
      rw [List.take_take, min_eq_left (by omega)] at hf
      exact .inr ⟨h₀, item, rfl, rfl, rfl, h9, h10, hf, h5, hg⟩

theorem retire_tail (q : Queue T) (n : Nat) : (q.retire n).tail = q.tail := by
  simp only [Queue.retire, Queue.collectGarbage]; split <;> rfl

/-- A step of the `Take` that deletes nothing. -/
theorem Inv.take_keep {s : State ι T} (hi : Inv s) {q' : Queue T} {pc' : TakePc T}
    (he : TakeEffect s.q s.take q' pc') (hok : TakeOk q' pc') (hf : q'.freed = s.q.freed)
    (hr : Retired q' pc') : Inv (s.setTake (q', pc')) := by
  have hstep : s.setTake (q', pc') = { s with q := q', take := pc' } := by
    have hgone : s.q.deletedBy q' = [] := deletedBy_eq (by simpa using hf)
    have hdang : (s.setTake (q', pc')).dangling = s.dangling := by
      funext i
      cases hu : (s.put i).uses <;> simp [State.setTake, hgone, hu]
    simp only [State.setTake, hgone] at hdang ⊢
    rw [hdang, List.length_nil, Queue.forget_zero]
  rw [hstep]
  refine ⟨he.inv hi.q, fun i h => (hi.put i h).mono he.grows, hok, fun i n hn => ?_, hi.distinct, hr,
    fun n hn => ?_, hi.uses⟩
  · obtain ⟨hp, hnf⟩ := hi.own i n hn
    exact ⟨hp.mono he.grows (he.privateKept hp), hf ▸ hnf⟩
  · obtain ⟨h1, h2⟩ := hi.freed n (hf ▸ hn)
    exact ⟨lt_of_lt_of_le h1 he.grows.allocs, he.chain_eq ▸ h2⟩

/-- A step of the `Take` that retires the tenth node: `CollectGarbage` deletes the five oldest. -/
theorem Inv.take_delete {s : State ι T} (hi : Inv s) {h₀ : Nat} {item : T} (hpc : s.take = .retire h₀ item)
    (hok : TakeOk (s.q.retire h₀) (.subSize item)) (h10 : s.q.taken = 10)
    (hf : (s.q.retire h₀).freed = s.q.freed ++ s.q.chain.take 5)
    (hg : (s.q.retire h₀).garbage = (s.q.chain.take 10).drop 5)
    (htail : ∀ n ∈ s.q.chain.take 5, s.q.tail ≠ some n)
    (hacc : ∀ n ∈ s.q.chain.take 5, ∀ i, (s.put i).accesses ≠ some n) :
    Inv (s.setTake (s.q.retire h₀, .subSize item)) := by
  have he : TakeEffect s.q s.take (s.q.retire h₀) (.subSize item) := hpc ▸ .retire
  have hstep : s.setTake (s.q.retire h₀, .subSize item) =
      { s with q := (s.q.retire h₀).forget 5, take := .subSize item
               dangling := fun i => s.dangling i || (s.put i).uses.any (s.q.chain.take 5).contains } := by
    have hlen := hi.q.taken_lt
    have h5 : (s.q.chain.take 5).length = 5 := by rw [List.length_take]; omega
    simp only [State.setTake, deletedBy_eq hf, h5]
  obtain ⟨hvals, htaken, -⟩ := retire_histories s.q h₀
  have hchain := retire_chain s.q h₀
  have hkept : ∀ i, s.dangling i = false → ((s.put i).uses.any (s.q.chain.take 5).contains) = false →
      Holds ((s.q.retire h₀).forget 5) (s.put i) := fun i hd hu => by
    refine ((hi.put i hd).mono he.grows).forget fun n hn => ?_
    rw [hn, Option.any_some, List.contains_eq_mem, decide_eq_false_iff_not] at hu
    rwa [hchain]
  have htail' : ∀ t, (s.q.retire h₀).tail = some t → t ∉ (s.q.retire h₀).chain.take 5 := fun t ht hm =>
    htail t (hchain ▸ hm) (retire_tail s.q h₀ ▸ ht)
  rw [hstep]
  refine ⟨(he.inv hi.q).forget (by rw [htaken]; omega) htail', fun i h => ?_, ?_, fun i n hn => ?_,
    hi.distinct, ⟨?_, ?_⟩, fun n hn => ?_, fun i h => ?_⟩
  · obtain ⟨hd, hu⟩ := Bool.or_eq_false_iff.1 h
    exact hkept i hd hu
  · obtain ⟨j, h1, h2⟩ := hok
    rw [htaken, h10] at h1
    obtain rfl : j = 9 := by omega
    exact ⟨4, by simp [Queue.forget, htaken, h10], by simpa [Queue.forget] using h2⟩
  · obtain ⟨hp, hnf⟩ := hi.own i n hn
    have hp' := hp.mono he.grows (he.privateKept hp)
    refine ⟨⟨hp'.lt, fun h => hp'.notMem (List.mem_of_mem_drop h), hp'.next, hp'.value⟩, fun h => ?_⟩
    rcases List.mem_append.1 (hf ▸ h : n ∈ s.q.freed ++ s.q.chain.take 5) with h | h
    · exact hnf h
    · exact hp.notMem (List.mem_of_mem_take h)
  · simp only [Queue.forget, hg, hchain, htaken, h10, TakePc.unretired, List.drop_take]
  · simp only [Queue.forget, hg, List.length_drop, List.length_take]
    omega
  · simp only [Queue.forget, hf, hchain, retire_allocs, List.mem_append] at hn ⊢
    rcases hn with hn | hn
    · obtain ⟨h1, h2⟩ := hi.freed n hn
      exact ⟨h1, fun h => h2 (List.mem_of_mem_drop h)⟩
    · exact ⟨hi.q.lt n (List.mem_of_mem_take hn), List.disjoint_take_drop hi.q.nodup (le_refl 5) hn⟩
  · cases hd : s.dangling i with
    | true => exact hi.uses i hd
    | false =>
      simp only [hd, Bool.false_or, Option.any_eq_true, List.contains_eq_mem, decide_eq_true_eq] at h
      obtain ⟨n, hu, hn⟩ := h
      refine ⟨Option.eq_none_iff_forall_ne_some.2 fun m hm => ?_, by rw [hu]; exact Option.some_ne_none n⟩
      have hmn := (PutPc.uses_of_accesses hm).symm.trans hu
      exact hacc n hn i (hmn ▸ hm)

theorem Inv.take_step {s : State ι T} (hi : Inv s) {sp : Bool} {r : Queue T × TakePc T}
    (hc : Careful s (.take sp)) (h : takeStep s.q sp s.take = some r) : Inv (s.setTake r) := by
  obtain ⟨q', pc'⟩ := r
  obtain ⟨he, hok⟩ := takeStep_effect hi.q hi.take h
  rcases he.deleted hi.q hi.retired hi.take with ⟨hf, hr⟩ | ⟨h₀, item, hpc, rfl, rfl, h9, h10, hf, h5, hg⟩
  · exact hi.take_keep he hok hf hr
  · have hc := hc (by rw [hpc]; rfl) h9
    rw [h5] at hc
    exact hi.take_delete hpc hok h10 hf hg (fun n hn => (hc n hn).1) fun n hn => (hc n hn).2

theorem inv_step [DecidableEq ι] {s s' : State ι T} {a : Act ι T} (hi : Inv s) (hc : Careful s a)
    (h : step s a = some s') : Inv s' := by
  cases a with
  | beginPut i item reused =>
    simp only [step] at h
    split at h
    · rename_i hpc
      obtain ⟨r, hr, rfl⟩ := Option.map_eq_some_iff.1 h
      exact hi.beginPut hpc hr
    · cases h
  | put i sp o =>
    obtain ⟨r, hr, rfl⟩ := Option.map_eq_some_iff.1 h
    exact hi.put_step hc hr
  | beginTake =>
    simp only [step] at h
    split at h
    · rename_i r hd
      obtain rfl := Option.some.inj h
      have hr := hi.retired
      rw [hd] at hr
      exact { hi with take := trivial, retired := ⟨hr.eq, hr.few⟩ }
    · cases h
  | take sp =>
    obtain ⟨r, hr, rfl⟩ := Option.map_eq_some_iff.1 h
    exact hi.take_step hc hr

/-- The nodes that the consumer has in hand are in the chain. -/
theorem Inv.take_accesses {s : State ι T} (hi : Inv s) {n : Nat} (hn : s.take.accesses = some n) :
    n ∈ s.q.chain := by
  have ht := hi.take
  have hhead := hi.q.head
  have hmem : ∀ {j m : Nat}, s.q.chain[j]? = some m → m ∈ s.q.chain := List.mem_of_getElem?
  cases hp : s.take <;> rw [hp] at hn ht <;>
    simp only [TakePc.accesses, Option.some.injEq, reduceCtorEq] at hn <;> subst hn
  case readNext h => exact hmem (hhead.symm.trans ht)
  case readNext2 h => exact hmem (hhead.symm.trans ht.1)
  case readNext3 h => obtain ⟨j, -, h2, -⟩ := ht; exact hmem h2
  case moveValue h nh => obtain ⟨j, -, -, h2, -⟩ := ht; exact hmem h2
  case retire h item => obtain ⟨j, -, h2, -⟩ := ht; exact hmem h2

theorem Inv.safe {s : State ι T} (hi : Inv s) : Safe s := by
  refine ⟨fun i n hn => ?_, fun n hn hf => (hi.freed n hf).2 (hi.take_accesses hn)⟩
  have hd : s.dangling i = false := by
    cases hd : s.dangling i with
    | false => rfl
    | true => exact absurd ((hi.uses i hd).1 ▸ hn) (Option.some_ne_none n).symm
  exact ⟨fun hf => (hi.freed n hf).2 ((hi.put i hd).mem (PutPc.uses_of_accesses hn)), hd⟩

/-- In every run of careful steps no thread accesses a node that `CollectGarbage` has deleted,
whatever addresses `new Node` returns. -/
theorem safe_of_careful [DecidableEq ι] {s : State ι T} (r : Reach (system ι T) Careful s) : Safe s :=
  (r.invariant (I := Inv) (fun _ h => h ▸ inv_init) fun _ _ _ => inv_step).safe

/-- `Careful`, as a test for two threads. -/
def carefulCheck (s : State (Fin 2) T) : Act (Fin 2) T → Bool
  | .take _ => !(s.take.retires && s.q.garbage.length == 9) ||
      (s.q.garbage.take 5).all fun n => s.q.tail != some n && (s.put 0).accesses != some n &&
        (s.put 1).accesses != some n
  | .put i spurious outer => !(s.put i).setsTail s.q spurious outer || !s.dangling i
  | _ => true

theorem careful_of_check (s : State (Fin 2) T) (a : Act (Fin 2) T) (h : carefulCheck s a = true) :
    Careful s a := by
  cases a with
  | beginPut | beginTake => trivial
  | put i sp o =>
    intro hs
    simpa [carefulCheck, hs] using h
  | take sp =>
    intro hr h9 n hn
    simp only [carefulCheck, hr, h9, BEq.rfl, Bool.and_self, Bool.not_true, Bool.false_or, List.all_eq_true,
      Bool.and_eq_true, bne_iff_ne] at h
    obtain ⟨⟨h1, h2⟩, h3⟩ := h n hn
    exact ⟨h1, Fin.forall_fin_two.2 ⟨h2, h3⟩⟩

/-- The steps of a `Put` by thread `i` on a queue with nothing to help, with `n` more steps. -/
def putActs (i : Fin 2) (item : Nat) (reused : Option Nat) (n : Nat) : List (Act (Fin 2) Nat) :=
  .beginPut i item reused :: List.replicate (n + 5) (.put i false none)

/-- The steps of a `Take`. -/
def takeActs : List (Act (Fin 2) Nat) := .beginTake :: List.replicate 8 (.take false)

/-- Ten items are put and taken, so that the five oldest nodes are deleted. Thread 1 then gets the
address of the first one for its own node, and thread 0 that of the second one; the `Put` of thread 0
is over before thread 1 links its node. -/
def reusing : List (Act (Fin 2) Nat) :=
  putActs 0 1 none 0 ++ (List.replicate 9 (putActs 0 2 none 4)).flatten ++ (List.replicate 10 takeActs).flatten ++
    [.beginPut 1 7 (some 0), .put 1 false none] ++ putActs 0 8 (some 1) 4 ++
    List.replicate 12 (.put 1 false none) ++ takeActs ++ takeActs

theorem safe_after_reuse : ∃ s : State (Fin 2) Nat, Reach (system (Fin 2) Nat) Careful s ∧
    (s.q.freed = [2, 3, 4] ∧ s.q.chain = [5, 6, 7, 8, 9, 10, 1, 0]) ∧ Safe s := by
  obtain ⟨s, r, hp⟩ := Reach.of_exec (system (Fin 2) Nat) reusing
    (fun s => decide (s.q.freed = [2, 3, 4] ∧ s.q.chain = [5, 6, 7, 8, 9, 10, 1, 0])) careful_of_check rfl
    (by decide +kernel)
  exact ⟨s, r, of_decide_eq_true hp, safe_of_careful r⟩

/-- `Careful` for the steps of `Take` only. -/
def carefulTakes (s : State (Fin 2) T) (a : Act (Fin 2) T) : Prop :=
  ∀ spurious, a = .take spurious → Careful s a

def carefulTakesCheck (s : State (Fin 2) T) : Act (Fin 2) T → Bool
  | .take spurious => carefulCheck s (.take spurious)
  | _ => true

/-- Thread 1 stalls before its CAS of `tail_`. Its `curr_tail` is deleted, its address is given to a
node that the others append, and `tail_` points to it when thread 1 goes on. -/
def reusedTail : List (Act (Fin 2) Nat) :=
  putActs 0 1 none 0 ++ .beginPut 1 7 none :: List.replicate 3 (.put 1 false none) ++
    (List.replicate 9 (putActs 0 2 none 4)).flatten ++ (List.replicate 10 takeActs).flatten ++
    putActs 0 8 (some 0) 4 ++ putActs 0 9 none 4 ++ List.replicate 2 (.put 1 false none)

/-- The CAS finds the address that it expects and puts `tail_` back to a deleted node: the clause about
`tail_` is needed. -/
theorem reused_tail_reads_freed : ∃ s : State (Fin 2) Nat,
    Reach (system (Fin 2) Nat) carefulTakes s ∧ (s.put 1).accesses = some 1 ∧ 1 ∈ s.q.freed := by
  have hcheck : ∀ (s : State (Fin 2) Nat) (a : Act (Fin 2) Nat), carefulTakesCheck s a = true →
      carefulTakes s a := by
    rintro s _ h sp rfl
    exact careful_of_check s (.take sp) h
  obtain ⟨s, r, hp⟩ := Reach.of_exec (system (Fin 2) Nat) reusedTail
    (fun s => decide ((s.put 1).accesses = some 1 ∧ 1 ∈ s.q.freed)) hcheck rfl (by decide +kernel)
  exact ⟨s, r, of_decide_eq_true hp⟩

/-- Thread 1 loads `tail_` and stalls; thread 0 puts ten items (all but the first `Put` have to
help `tail_` first) and the consumer takes them. -/
def stalledPut : List (Act (Fin 2) Nat) :=
  [Act.beginPut 1 0 none, Act.put 1 false none] ++ putActs 0 1 none 0 ++
    (List.replicate 9 (putActs 0 2 none 4)).flatten ++ (List.replicate 10 takeActs).flatten

/-- Thread 1 is then about to read `curr_tail->next` of a node that was deleted. -/
theorem stalled_put_reads_freed :
    ¬ ∀ s : State (Fin 2) Nat, Reach (system (Fin 2) Nat) anyStep s → Safe s := by
  intro hsafe
  obtain ⟨s, r, hp⟩ := Reach.of_exec_any (system (Fin 2) Nat) stalledPut
    (fun s => decide ((s.put 1).accesses = some 0 ∧ 0 ∈ s.q.freed)) rfl (by decide +kernel)
  obtain ⟨h1, h2⟩ := of_decide_eq_true hp
  exact ((hsafe s r).1 1 0 h1).1 h2

end MSQueue
