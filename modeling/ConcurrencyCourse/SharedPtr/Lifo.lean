import ConcurrencyCourse.SharedPtr.StackOps

/-!
# `LockFreeStack` on `AtomicSharedPtr`: LIFO and exact reclamation

The CAS of `Push` publishes the node before it counts the reference of `top_`, and the CAS of `TryPop`
publishes the next node in the same way (`Op.window`). The missing reference is covered: `Push` has
`new_node` until it returns, and the node that `TryPop` takes out is alive as long as the call runs,
so its `next` is counted (`Inv.covered`). Hence no node is dropped too early, and the counters are
right whenever they reach zero.

`Inv` is kept by every step; what a step can do is said once for the two operations
(`loadOk_access`, `casOk_access`).
-/

namespace LockFreeStack

open Transition SharedPtr Function StampedPtr

/-! ## The invariant -/

section inv

variable {V ι : Type} [DecidableEq ι]

def Task.hold (task : Task V) (b : Nat) : Int := (task.handles.map (is · b)).sum

/-- The references outside the operations: of the threads, and in the nodes. -/
def State.ext [Fintype ι] (s : State V ι) (b : Nat) : Int :=
  ∑ t, (s.tasks t).hold b + nextExt s.next s.mem.allocs b

/-- The nodes that were pushed, newest first. -/
def published (h : History (State V ι) (Act V ι)) : List Nat := (pushes h).map Prod.fst

/-- A handle of a published node, or none. -/
def Known (h : History (State V ι) (Act V ι)) (x : Handle) : Prop := ∀ b, x = some b → b ∈ published h

def TaskOk (K : Handle → Prop) (next : Nat → Handle) (op : Op Unit) : Task V → Prop
  | .idle | .pushed | .popped _ => op = .idle
  | .pushLoad _ | .popLoad => LoadOk K op
  | .pushTry _ e => op = .idle ∧ K e
  | .pushCas n => CasOk K (fun _ => True) (· = none) (some n) op
  | .pushEnd | .popRetry | .popEnd _ => op.pc = .done .unit ∧ ∀ b, Instr.pub b ∉ op.todo
  | .popTry c => op = .idle ∧ K (some c)
  | .popCas c => K (some c) ∧ CasOk K (· = some c) (· = some c) (next c) op

/-- The node that a `Push` has not published yet. -/
def ownNode (op : Op Unit) : Task V → Option Nat
  | .pushLoad n | .pushTry n _ => some n
  | .pushCas n => if committed op then none else some n
  | _ => none

/-- What the current call of thread `t` has done so far. -/
def CallOk (t : ι) (h : History (State V ι) (Act V ι)) (s : State V ι) (op : Op Unit) : Task V → Prop
  | .idle => True
  | .pushLoad n | .pushTry n _ => lastCall t h = some (.push t (s.value n)) ∧ callEvents t h = []
  | .pushCas n => lastCall t h = some (.push t (s.value n)) ∧
      callEvents t h = if committed op then [.push n (s.value n)] else []
  | .pushEnd | .pushed => ∃ n v, lastCall t h = some (.push t v) ∧ callEvents t h = [.push n v]
  | .popLoad => (lastCall t h = some (.tryPop t) ∧ callEvents t h = []) ∧
      (Empty op.pc → During (fun a => Begins t a = true) (fun s => s.contents = []) h s)
  | .popTry _ | .popRetry => lastCall t h = some (.tryPop t) ∧ callEvents t h = []
  | .popCas c => lastCall t h = some (.tryPop t) ∧
      callEvents t h = if committed op then [.pop c (s.value c)] else []
  | .popEnd v | .popped (some v) => lastCall t h = some (.tryPop t) ∧ ∃ n, callEvents t h = [.pop n v]
  | .popped none => lastCall t h = some (.tryPop t) ∧ callEvents t h = [] ∧
      During (fun a => Begins t a = true) (fun s => s.contents = []) h s

/-- The node that the call is about. -/
def Task.node : Task V → Option Nat
  | .pushLoad n | .pushTry n _ | .pushCas n | .popCas n => some n
  | _ => none

variable {h : History (State V ι) (Act V ι)} {s s' : State V ι} {a : Act V ι} {t : ι}

/-! ### A step of another thread -/

theorem lastCall_later (ha : Begins t a = false) : lastCall t ((a, s) :: h) = lastCall t h := by
  simp [lastCall, ha]

theorem callEvents_later (ha : Begins t a = false) (he : ∀ e, event s a ≠ some (t, e)) :
    callEvents t ((a, s) :: h) = callEvents t h := by
  simp only [callEvents, ha, Bool.false_eq_true, if_false]
  split
  · rename_i u e heq
    rw [if_neg]
    rintro rfl
    exact he e heq
  · rfl

theorem CallOk.later {op : Op Unit} {task : Task V} (hc : CallOk t h s op task)
    (ha : Begins t a = false) (he : ∀ e, event s a ≠ some (t, e))
    (hval : ∀ n, task.node = some n → s'.value n = s.value n) : CallOk t ((a, s) :: h) s' op task := by
  have hl := lastCall_later (h := h) (s := s) ha
  have hev := callEvents_later (h := h) ha he
  have hd : ∀ {P : State V ι → Prop}, During (fun a => Begins t a = true) P h s →
      During (fun a => Begins t a = true) P ((a, s) :: h) s' := fun hp => hp.later (by simp [ha])
  match task, hc with
  | .idle, _ => trivial
  | .pushLoad n, ⟨h1, h2⟩ | .pushTry n _, ⟨h1, h2⟩ =>
    exact ⟨by rw [hl, hval n rfl, h1], hev.trans h2⟩
  | .pushCas n, ⟨h1, h2⟩ =>
    refine ⟨by rw [hl, hval n rfl, h1], ?_⟩
    rw [hev, hval n rfl, h2]
  | .pushEnd, ⟨n, v, h1, h2⟩ | .pushed, ⟨n, v, h1, h2⟩ => exact ⟨n, v, hl.trans h1, hev.trans h2⟩
  | .popLoad, ⟨⟨h1, h2⟩, h3⟩ => exact ⟨⟨hl.trans h1, hev.trans h2⟩, fun hx => hd (h3 hx)⟩
  | .popTry _, ⟨h1, h2⟩ | .popRetry, ⟨h1, h2⟩ => exact ⟨hl.trans h1, hev.trans h2⟩
  | .popCas c, ⟨h1, h2⟩ =>
    refine ⟨hl.trans h1, ?_⟩
    rw [hev, hval c rfl, h2]
  | .popEnd v, ⟨h1, n, h2⟩ | .popped (some v), ⟨h1, n, h2⟩ => exact ⟨hl.trans h1, n, hev.trans h2⟩
  | .popped none, ⟨h1, h2, h3⟩ => exact ⟨hl.trans h1, hev.trans h2, hd h3⟩

theorem CallOk.todo {op : Op Unit} {task : Task V} (hc : CallOk t h s op task) (l : List Instr) :
    CallOk t h s ⟨op.pc, l⟩ task := by
  match task, hc with
  | .popped none, hc | .popped (some _), hc => exact hc
  | .idle, hc | .pushLoad _, hc | .pushTry _ _, hc | .pushCas _, hc | .pushEnd, hc | .pushed, hc
  | .popLoad, hc | .popTry _, hc | .popRetry, hc | .popCas _, hc | .popEnd _, hc => exact hc

omit [DecidableEq ι] in
theorem pushes_none (he : event s a = none) : pushes ((a, s) :: h) = pushes h := by
  simp [pushes, he]

omit [DecidableEq ι] in
theorem pops_none (he : event s a = none) : pops ((a, s) :: h) = pops h := by
  simp [pops, he]

theorem TaskOk.mono {K K' : Handle → Prop} {next next' : Nat → Handle} {op : Op Unit} {task : Task V}
    (hk : TaskOk K next op task) (hK : ∀ x, K x → K' x)
    (hnext : ∀ c, task = .popCas c → Using op → next' c = next c) : TaskOk K' next' op task := by
  match task, hk with
  | .idle, h | .pushed, h | .popped _, h => exact h
  | .pushLoad _, h | .popLoad, h => exact LoadOk.mono h hK
  | .pushTry _ _, h => exact ⟨h.1, hK _ h.2⟩
  | .pushCas _, h => exact CasOk.mono h hK fun _ => rfl
  | .pushEnd, h | .popRetry, h | .popEnd _, h => exact h
  | .popTry _, h => exact ⟨h.1, hK _ h.2⟩
  | .popCas c, h => exact ⟨hK _ h.1, h.2.mono hK (hnext c rfl)⟩

theorem TaskOk.todo {K : Handle → Prop} {next : Nat → Handle} {op : Op Unit} {task : Task V}
    {l : List Instr} (hk : TaskOk K next op task) (hne : op.todo ≠ []) (hpub : ∀ b, Instr.pub b ∉ l)
    (hrel : (∀ b ds dt, Instr.inc b ds dt ∈ op.todo → ds ≤ 0) → ∀ b ds dt, Instr.inc b ds dt ∈ l → ds ≤ 0) :
    TaskOk K next ⟨op.pc, l⟩ task := by
  have hidle : op ≠ .idle := by rintro rfl; exact hne rfl
  match task, hk with
  | .idle, h | .pushed, h | .popped _, h => exact absurd h hidle
  | .pushLoad _, h | .popLoad, h => exact LoadOk.todo h hpub
  | .pushTry _ _, h | .popTry _, h => exact absurd h.1 hidle
  | .pushCas _, h => exact CasOk.todo h hne hpub hrel
  | .pushEnd, h | .popRetry, h | .popEnd _, h => exact ⟨h.1, hpub⟩
  | .popCas c, h => exact ⟨h.1, h.2.todo hne hpub hrel⟩

/-! ### What the handles are worth -/

omit [DecidableEq ι] in
theorem Task.hold_nonneg (task : Task V) (b : Nat) : 0 ≤ task.hold b := by
  refine List.sum_nonneg fun x hx => ?_
  obtain ⟨h, -, rfl⟩ := List.mem_map.1 hx
  exact is_nonneg h b

omit [DecidableEq ι] in
theorem Task.one_le_hold {task : Task V} {b : Nat} (hb : some b ∈ task.handles) : 1 ≤ task.hold b := by
  refine le_trans ?_ (List.single_le_sum (fun x hx => ?_) _ (List.mem_map.2 ⟨some b, hb, rfl⟩))
  · rw [is_self]
  · obtain ⟨h, -, rfl⟩ := List.mem_map.1 hx
    exact is_nonneg h b

structure Inv [Fintype ι] (h : History (State V ι) (Act V ι)) (s : State V ι) : Prop where
  life : Lifetime s.mem s.ops s.ext
  pubs : ∀ t, (s.ops t).PubFirst
  tasks : ∀ t, TaskOk (Known h) s.next (s.ops t) (s.tasks t)
  chain : Chain s.next (s.mem.reg ()).raw s.nodes
  perm : (pushes h).Perm (pops h ++ s.nodes.map fun n => (n, s.value n))
  nodup : (published h).Nodup
  order : ∀ n b, s.next n = some b → List.Sublist [n, b] (published h)
  allocated : ∀ n, n < s.mem.allocs ↔ n ∈ published h ∨ ∃ t, ownNode (s.ops t) (s.tasks t) = some n
  own : ∀ t n, ownNode (s.ops t) (s.tasks t) = some n → n ∉ published h ∧
    ∀ u, ownNode (s.ops u) (s.tasks u) = some n → u = t
  ended : ∀ n ∈ s.mem.deleted, s.next n = none
  calls : ∀ t, CallOk t h s (s.ops t) (s.tasks t)

variable [Fintype ι]

omit [DecidableEq ι] in
theorem State.ext_nonneg (s : State V ι) (b : Nat) : 0 ≤ s.ext b := by
  have h1 : 0 ≤ ∑ t, (s.tasks t).hold b := Finset.sum_nonneg fun t _ => (s.tasks t).hold_nonneg b
  have h2 := nextExt_nonneg s.next s.mem.allocs b
  simp only [State.ext]
  omega

omit [DecidableEq ι] in
theorem State.one_le_ext_of_handle {b : Nat} (hb : some b ∈ (s.tasks t).handles) : 1 ≤ s.ext b := by
  have h1 := Task.one_le_hold hb
  have h2 := Finset.single_le_sum (s := Finset.univ) (f := fun t => (s.tasks t).hold b)
    (fun t _ => (s.tasks t).hold_nonneg b) (Finset.mem_univ t)
  have h3 := nextExt_nonneg s.next s.mem.allocs b
  simp only [State.ext] at h1 h2 ⊢
  omega

omit [DecidableEq ι] in
theorem State.one_le_ext_of_next {n b : Nat} (hn : n < s.mem.allocs) (hb : s.next n = some b) :
    1 ≤ s.ext b := by
  have h1 : 0 ≤ ∑ t, (s.tasks t).hold b := Finset.sum_nonneg fun t _ => (s.tasks t).hold_nonneg b
  have h2 := one_le_nextExt hn hb
  simp only [State.ext]
  omega

namespace Inv

theorem lt_allocs (hi : Inv h s) {n : Nat} (hn : n ∈ published h) : n < s.mem.allocs :=
  (hi.allocated n).2 (.inl hn)

theorem nodes_published (hi : Inv h s) {n : Nat} (hn : n ∈ s.nodes) : n ∈ published h := by
  have h1 : (n, s.value n) ∈ pushes h :=
    hi.perm.mem_iff.2 (List.mem_append_right _ (List.mem_map_of_mem hn))
  exact List.mem_map.2 ⟨_, h1, rfl⟩

theorem reg_known (hi : Inv h s) : Known h (s.mem.reg ()).raw := by
  intro b hb
  have hc := hi.chain
  rw [hb] at hc
  cases hn : s.nodes with
  | nil => rw [hn] at hc; cases hc
  | cons n l =>
    rw [hn] at hc
    obtain rfl : b = n := Option.some.inj hc.1
    exact hi.nodes_published (by rw [hn]; exact List.mem_cons_self)

/-- `TryPop` keeps the node alive that it is about to take out. -/
theorem popCas_alive (hi : Inv h s) {c : Nat} (ht : s.tasks t = .popCas c) (hu : Using (s.ops t)) :
    c < s.mem.allocs ∧ given s.mem s.ops c = 0 := by
  have hok := hi.tasks t
  rw [ht] at hok
  exact hi.life.of_owned (t := t) (.inl (hok.2.hold_pos hu))

/-- A published node that the counter does not know yet has another handle. -/
theorem covered (hi : Inv h s) {b : Nat} (hb : Instr.pub b ∈ (s.ops t).todo) : 1 ≤ s.ext b := by
  have hidle : s.ops t ≠ .idle := by
    intro e; rw [e] at hb; simp [Op.idle] at hb
  have hcas : ∀ {K E S : Handle → Prop} {des : Handle}, CasOk K E S des (s.ops t) →
      Using (s.ops t) ∧ des = some b := by
    intro K E S des hc
    unfold CasOk at hc
    unfold Using
    split at hc
    · rw [hc.1] at hb; cases hb
    · rw [hc.1] at hb; cases hb
    · rw [hc.1] at hb; cases hb
    · exact absurd hb (hc b)
    · exact absurd hb (hc.1 b)
    · exact absurd hb (hc.1 b)
    · exact absurd hb (hc.1 b)
    · rename_i heq; rw [heq]; exact ⟨trivial, hc.2.2 b hb⟩
    · exact hc.elim
  have hok := hi.tasks t
  match htask : s.tasks t, hok with
  | .idle, hok | .pushed, hok | .popped _, hok => exact absurd hok hidle
  | .pushLoad _, hok | .popLoad, hok => exact absurd hb (hok.1 b)
  | .pushTry _ _, hok | .popTry _, hok => exact absurd hok.1 hidle
  | .pushEnd, hok | .popRetry, hok | .popEnd _, hok => exact absurd hb (hok.2 b)
  | .pushCas n, hok =>
    obtain ⟨-, hn⟩ := hcas hok
    refine State.one_le_ext_of_handle (t := t) ?_
    rw [htask, ← hn]
    exact List.mem_singleton_self _
  | .popCas c, hok =>
    obtain ⟨hu, hn⟩ := hcas hok.2
    exact State.one_le_ext_of_next (hi.popCas_alive htask hu).1 hn

/-- The nodes of the stack are alive. -/
theorem nodes_alive (hi : Inv h s) : ∀ n ∈ s.nodes, given s.mem s.ops n = 0 := by
  have hgo : ∀ x l, Chain s.next x l → (∀ n, x = some n → n < s.mem.allocs ∧ given s.mem s.ops n = 0) →
      ∀ n ∈ l, given s.mem s.ops n = 0 := by
    intro x l
    induction l generalizing x with
    | nil => simp
    | cons k l ih =>
      rintro ⟨rfl, hc⟩ hx n hn
      have hk := hx k rfl
      rcases List.mem_cons.1 hn with rfl | hn
      · exact hk.2
      · exact ih _ hc (fun j hj => hi.life.of_outside (.inl (State.one_le_ext_of_next hk.1 hj))) n hn
  refine hgo _ _ hi.chain fun n hn => hi.life.of_outside (.inr ?_)
  simp [Mem.regs, hn]

/-! ### Steps that leave the stack alone -/

/-- A step of thread `t` that changes neither the stack nor the nodes. -/
theorem same (hi : Inv h s) {m' : Mem Unit} {op' : Op Unit} {task' : Task V} {tasks' : ι → Task V}
    (htasks : tasks' = update s.tasks t task') (hothers : ∀ u, u ≠ t → Begins u a = false)
    (he : event s a = none) (hreg : (m'.reg ()).raw = (s.mem.reg ()).raw)
    (halloc : m'.allocs = s.mem.allocs) (hdel : m'.deleted = s.mem.deleted)
    (hlife : ∀ ext', (∀ b, 0 ≤ ext' b) →
      (∀ b, ext' b + (s.tasks t).hold b = s.ext b + task'.hold b) →
      Lifetime m' (update s.ops t op') ext')
    (hpub : op'.PubFirst) (htask : TaskOk (Known h) s.next op' task')
    (hown : ownNode op' task' = ownNode (s.ops t) (s.tasks t))
    (hcall : CallOk t ((a, s) :: h) ⟨m', update s.ops t op', tasks', s.next, s.value⟩ op' task') :
    Inv ((a, s) :: h) ⟨m', update s.ops t op', tasks', s.next, s.value⟩ := by
  subst htasks
  have hpushes : pushes ((a, s) :: h) = pushes h := pushes_none he
  have hpublished : published ((a, s) :: h) = published h := by rw [published, hpushes, published]
  have hknown : Known ((a, s) :: h) = Known h := by funext x; simp only [Known, hpublished]
  have hnodes : State.nodes ⟨m', update s.ops t op', update s.tasks t task', s.next, s.value⟩ = s.nodes := by
    simp only [State.nodes, hreg, halloc]
  have howns : ∀ u, ownNode (update s.ops t op' u) (update s.tasks t task' u) =
      ownNode (s.ops u) (s.tasks u) := by
    intro u
    by_cases hu : u = t
    · subst hu; rw [update_self, update_self, hown]
    · rw [update_of_ne hu, update_of_ne hu]
  refine ⟨?_, fun u => ?_, fun u => ?_, ?_, ?_, ?_, ?_, ?_, ?_, ?_, fun u => ?_⟩
  · refine hlife _ (State.ext_nonneg _) fun b => ?_
    have h1 := Threads.sum_update_add (fun task : Task V => task.hold b) s.tasks t task'
    simp only [State.ext, halloc]
    omega
  · by_cases hu : u = t
    · subst hu; simp only [update_self]; exact hpub
    · simp only [update_of_ne hu]; exact hi.pubs u
  · rw [hknown]
    by_cases hu : u = t
    · subst hu; simp only [update_self]; exact htask
    · simp only [update_of_ne hu]; exact hi.tasks u
  · rw [hnodes]; simp only [hreg]; exact hi.chain
  · rw [hpushes, pops_none he, hnodes]; exact hi.perm
  · rw [hpublished]; exact hi.nodup
  · rw [hpublished]; exact hi.order
  · simp only [hpublished, halloc, howns]; exact hi.allocated
  · simp only [hpublished, howns]; exact hi.own
  · simp only [hdel]; exact hi.ended
  · by_cases hu : u = t
    · subst hu; simp only [update_self]; exact hcall
    · simp only [update_of_ne hu]
      exact (hi.calls u).later (hothers u hu) (fun e => by rw [he]; simp) fun _ _ => rfl

omit [Fintype ι] [DecidableEq ι] in
theorem event_todo {sp : Bool} (hne : (s.ops t).todo ≠ []) : event s (.go t sp) = none := by
  unfold event
  split <;> simp_all

omit [Fintype ι] [DecidableEq ι] in
theorem event_pc {sp : Bool} (hne : ∀ w e d, (s.ops t).pc = .casTry () w e d →
    ¬ (sp = false ∧ s.mem.reg () = (StampedPtr.mk e w.stamp).packed)) :
    event s (.go t sp) = none := by
  simp only [event]
  split
  · rename_i hpc
    exact if_neg (hne _ _ _ hpc)
  · rename_i hpc
    exact if_neg (hne _ _ _ hpc)
  · rfl

/-- An update of a counter. -/
theorem count (hi : Inv h s) {sp : Bool} {i : Instr} {l : List Instr} {b : Nat} {ds dt : Int}
    (hop : (s.ops t).todo = i :: l) (hadds : i.adds = some (b, ds, dt)) :
    Inv ((.go t sp, s) :: h) { s with
      mem := s.mem.count b ds dt
      ops := update s.ops t ⟨(s.ops t).pc, (s.mem.count b ds dt).dropped b ++ l⟩ } := by
  have hne : (s.ops t).todo ≠ [] := by rw [hop]; simp
  have hl : ∀ c, Instr.pub c ∉ l := fun c => by have := hi.pubs t c; rwa [hop] at this
  have hdropped : ∀ i ∈ (s.mem.count b ds dt).dropped b, i = .del b := by
    intro i hi
    unfold Mem.dropped at hi
    split at hi
    · exact List.mem_singleton.1 hi
    · cases hi
  have hpub : ∀ c, Instr.pub c ∉ (s.mem.count b ds dt).dropped b ++ l := by
    intro c hc
    rcases List.mem_append.1 hc with hc | hc
    · cases hdropped _ hc
    · exact hl c hc
  refine hi.same (update_eq_self t s.tasks).symm (fun _ _ => rfl) (event_todo hne) rfl rfl rfl
    (fun ext' _ hext => ?_) (fun c hc => hpub c (List.mem_of_mem_tail hc))
    ((hi.tasks t).todo hne hpub fun hrel c ds dt hc => ?_) rfl
    (((hi.calls t).later rfl (fun e => by rw [event_todo hne]; simp) fun _ _ => rfl).todo _)
  · obtain rfl : ext' = s.ext := funext fun b => by have := hext b; omega
    exact hi.life.count hop hadds fun h1 _ => hi.life.keeps hi.pubs hop hadds (fun u => hi.covered) h1
  · rcases List.mem_append.1 hc with hc | hc
    · cases hdropped _ hc
    · exact hrel c ds dt (by rw [hop]; exact List.mem_cons_of_mem _ hc)

/-- An access to `top_` that leaves the handle there. -/
theorem access (hi : Inv h s) {sp : Bool} {m' : Mem Unit} {op' : Op Unit} (htodo : (s.ops t).todo = [])
    (hlim : (s.ops t).Limited s.mem) (hs : pcStep s.mem sp (s.ops t).pc = some (m', op'))
    (he : event s (.go t sp) = none) (hreg : (m'.reg ()).raw = (s.mem.reg ()).raw)
    (htask : TaskOk (Known h) s.next op' (s.tasks t))
    (hown : ownNode op' (s.tasks t) = ownNode (s.ops t) (s.tasks t))
    (hcall : ∀ s', s'.value = s.value → CallOk t ((.go t sp, s) :: h) s' op' (s.tasks t)) :
    Inv ((.go t sp, s) :: h) { s with mem := m', ops := update s.ops t op' } := by
  obtain ⟨-, -, f3, f4⟩ := pcStep_frame hs
  refine hi.same (update_eq_self t s.tasks).symm (fun _ _ => rfl) he hreg f3 f4
    (fun ext' _ hext => ?_) (pcStep_pubFirst hs) htask hown (hcall _ rfl)
  obtain rfl : ext' = s.ext := funext fun b => by have := hext b; omega
  exact hi.life.access htodo hlim hs

/-- An operation that begins, or none: it has what the caller gave it. -/
structure Fresh (op : Op Unit) : Prop where
  pc : op.pc.Ok ∧ op.pc.Calm
  wf : op.WF
  zero : ∀ b, op.thold b = 0 ∧ op.window b = 0 ∧ op.dels b = 0
  pub : ∀ b, Instr.pub b ∉ op.todo

theorem fresh_idle : Fresh .idle :=
  ⟨⟨trivial, trivial⟩, trivial, fun _ => ⟨rfl, rfl, rfl⟩, fun b => by simp [Op.idle]⟩

theorem fresh_load : Fresh (.load ()) :=
  ⟨⟨trivial, trivial⟩, trivial, fun _ => ⟨rfl, rfl, rfl⟩, fun b => by simp [Op.load]⟩

theorem fresh_cas (exp des : Handle) : Fresh (.compareExchangeWeak () exp des) :=
  ⟨⟨trivial, trivial⟩, trivial, fun _ => ⟨rfl, rfl, rfl⟩, fun b => by simp [Op.compareExchangeWeak]⟩

theorem fresh_reset (n : Nat) : Fresh (.reset n) :=
  ⟨⟨trivial, trivial⟩, reset_wf n, fun b => by
    simp [Op.thold, Op.window, Op.dels, Op.reset, Pc.thold, dtransient, window, dels],
    fun b => by simp [Op.reset]⟩

/-- A step of the code between two operations. -/
theorem turn (hi : Inv h s) {op' : Op Unit} {task' : Task V} (htodo : (s.ops t).todo = [])
    (hthold : ∀ b, (s.ops t).pc.thold b = 0) (hothers : ∀ u, u ≠ t → Begins u a = false)
    (he : event s a = none) (hop : Fresh op')
    (hhold : ∀ b, op'.hold b + task'.hold b = (s.ops t).pc.hold b + (s.tasks t).hold b)
    (htask : TaskOk (Known h) s.next op' task')
    (hown : ownNode op' task' = ownNode (s.ops t) (s.tasks t))
    (hcall : ∀ s', s'.value = s.value → CallOk t ((a, s) :: h) s' op' task') :
    Inv ((a, s) :: h) (s.set t task' op') := by
  have howns := owns_of_todo_nil htodo
  refine hi.same rfl hothers he rfl rfl rfl (fun ext' hext hsum => ?_)
    (fun b hb => hop.pub b (List.mem_of_mem_tail hb)) htask hown (hcall _ rfl)
  refine hi.life.transfer hop.pc hop.wf hext (fun b => ?_) (fun b => ?_) (fun b => ?_) fun b => ?_
  · have h1 := hsum b
    have h2 := hhold b
    rw [(howns b).1]
    omega
  · rw [(hop.zero b).1, (howns b).2.1, hthold]
  · rw [(hop.zero b).2.1, (howns b).2.2.1]
  · rw [(hop.zero b).2.2, (howns b).2.2.2]

/-- The call of `CompareExchangeWeak` with a copy of `des`. -/
theorem callCas (hi : Inv h s) {task' : Task V} {exp des : Handle} (hidle : s.ops t = .idle)
    (hothers : ∀ u, u ≠ t → Begins u a = false) (he : event s a = none)
    (hdes : ∀ b, des = some b → 1 ≤ s.ext b)
    (hhold : ∀ b, is exp b + task'.hold b = (s.tasks t).hold b)
    (htask : TaskOk (Known h) s.next (.compareExchangeWeak () exp des) task')
    (hown : ownNode (.compareExchangeWeak () exp des) task' = ownNode (s.ops t) (s.tasks t))
    (hcall : ∀ s', s'.value = s.value →
      CallOk t ((a, s) :: h) s' (.compareExchangeWeak () exp des) task') :
    Inv ((a, s) :: h) (s.callCas t task' exp des) := by
  have hholds : ∀ b, (Op.compareExchangeWeak () exp des).hold b = is exp b + is des b := fun b => by
    simp [Op.hold, Op.compareExchangeWeak, Pc.hold, Cont.hold, dstrong]
  cases des with
  | none =>
    refine hi.turn (by rw [hidle]; rfl) (fun b => by rw [hidle]; rfl) hothers he (fresh_cas exp none)
      (fun b => ?_) htask hown hcall
    have := hhold b
    rw [hholds, is_none, hidle]
    simp only [Op.idle, Pc.hold]
    omega
  | some n =>
    obtain ⟨hdropped, hlife⟩ := hi.life.share hi.pubs (hdes n rfl) fun _ => rfl
    have hfresh := fresh_cas exp (some n)
    simp only [State.callCas, hdropped]
    refine hi.same rfl hothers he rfl rfl rfl (fun ext' hext hsum => ?_)
      (fun b hb => hfresh.pub b (List.mem_of_mem_tail hb)) htask hown (hcall _ rfl)
    refine hlife.transfer hfresh.pc hfresh.wf hext (fun b => ?_) (fun b => ?_) (fun b => ?_) fun b => ?_
    · have h1 := hsum b
      have h2 := hhold b
      have h3 := hholds b
      have h4 : (Op.idle : Op Unit).hold b = 0 := rfl
      rw [hidle]
      simp only [Op.compareExchangeWeak] at h3
      omega
    all_goals rw [hidle]; rfl

omit [Fintype ι] [DecidableEq ι] in
theorem quiet_cases (hq : Quiet (s.ops t) = true) :
    (s.ops t).todo = [] ∧ ((s.ops t).pc = .idle ∨ ∃ res, (s.ops t).pc = .done res) := by
  unfold Quiet at hq
  split at hq
  · exact ⟨by assumption, .inl (by assumption)⟩
  · exact ⟨by assumption, .inr ⟨_, by assumption⟩⟩
  · cases hq

omit [Fintype ι] [DecidableEq ι] in
theorem event_quiet {sp : Bool} (hq : Quiet (s.ops t) = true) : event s (.go t sp) = none :=
  event_pc fun w e d hw => by
    rcases (quiet_cases hq).2 with h' | ⟨res, h'⟩ <;> rw [h'] at hw <;> cases hw

omit [Fintype ι] in
theorem advance_contents (hs : s.advance t = some s') : s'.contents = s.contents := by
  have hcall : ∀ task exp des, (s.callCas t task exp des).contents = s.contents := fun task exp des => by
    cases des <;> rfl
  unfold State.advance at hs
  split at hs <;> cases hs <;> first | rfl | exact hcall _ _ _

theorem advance (hi : Inv h s) {sp : Bool} (hq : Quiet (s.ops t) = true) (hs : s.advance t = some s') :
    Inv ((.go t sp, s) :: h) s' := by
  obtain ⟨htodo, hpc⟩ := quiet_cases hq
  have he : event s (.go t sp) = none := event_quiet hq
  have hthold : ∀ b, (s.ops t).pc.thold b = 0 := fun b => by
    rcases hpc with h' | ⟨res, h'⟩ <;> rw [h'] <;> rfl
  have hoth : ∀ u, u ≠ t → Begins u (.go t sp : Act V ι) = false := fun _ _ => rfl
  have hok := hi.tasks t
  have hcall : ∀ s' : State V ι, s'.value = s.value →
      CallOk t ((.go t sp, s) :: h) s' (s.ops t) (s.tasks t) := fun s' hv =>
    (hi.calls t).later rfl (fun e => by rw [he]; simp) fun n _ => congrFun hv n
  unfold State.advance at hs
  split at hs <;> try cases hs
  · -- new_node->next = top_.Load()
    rename_i n x htask hpc
    rw [htask] at hok hcall
    have hx : Known h x := by have := hok.2; rwa [hpc] at this
    refine hi.turn htodo hthold hoth he fresh_idle (fun b => ?_) ⟨rfl, hx⟩ (by rw [htask]; rfl) hcall
    rw [htask, hpc]
    simp [Op.hold, Op.idle, Pc.hold, Res.hold, Task.hold, Task.handles, dstrong]
    omega
  · -- the CAS of Push
    rename_i n e htask
    rw [htask] at hok hcall
    refine hi.callCas hok.1 hoth he (fun b hb => ?_) (fun b => ?_) ⟨rfl, hok.2, trivial, rfl⟩
      (by rw [htask]; rfl) fun s' hv => ⟨(hcall s' hv).1, (hcall s' hv).2⟩
    · obtain rfl := Option.some.inj hb
      exact State.one_le_ext_of_handle (t := t) (by rw [htask]; exact List.mem_cons_self)
    · rw [htask]
      simp [Task.hold, Task.handles]
      omega
  · -- Push has published the node
    rename_i n e htask hpc
    rw [htask] at hok hcall
    have hcomm : committed (s.ops t) = true := by simp [committed, hpc]
    obtain rfl : e = none := by
      simp only [TaskOk, CasOk, hpc] at hok
      exact hok.1
    refine hi.turn htodo hthold hoth he (fresh_reset n) (fun b => ?_) ⟨rfl, (fresh_reset n).pub⟩
      (by rw [htask]; simp [ownNode, hcomm]) fun s' hv => ?_
    · rw [htask, hpc]
      by_cases hb : n = b <;>
        simp [Op.hold, Op.reset, Pc.hold, Res.hold, Task.hold, Task.handles, dstrong, is, hb]
    · obtain ⟨h1, h2⟩ := hcall s' hv
      rw [hcomm] at h2
      exact ⟨n, _, h1, h2⟩
  · -- the CAS of Push has failed
    rename_i n e htask hpc
    rw [htask] at hok hcall
    have hcomm : committed (s.ops t) = false := by simp [committed, hpc]
    have hx : Known h e := by
      simp only [TaskOk, CasOk, hpc] at hok
      exact hok.2
    refine hi.turn htodo hthold hoth he fresh_idle (fun b => ?_) ⟨rfl, hx⟩
      (by rw [htask]; simp [ownNode, hcomm]) fun s' hv => ?_
    · rw [htask, hpc]
      simp [Op.hold, Op.idle, Pc.hold, Res.hold, Task.hold, Task.handles, dstrong]
      omega
    · obtain ⟨h1, h2⟩ := hcall s' hv
      rw [hcomm] at h2
      exact ⟨h1, h2⟩
  · -- new_node is gone
    rename_i htask hpc
    rw [htask] at hok hcall
    refine hi.turn htodo hthold hoth he fresh_idle (fun b => ?_) rfl (by rw [htask]; rfl) hcall
    rw [htask, hok.1]
    rfl
  · -- TryPop has loaded nullptr
    rename_i htask hpc
    rw [htask] at hok hcall
    refine hi.turn htodo hthold hoth he fresh_idle (fun b => ?_) rfl (by rw [htask]; rfl) fun s' hv => ?_
    · rw [htask, hpc]
      rfl
    · obtain ⟨⟨h1, h2⟩, h3⟩ := hcall s' hv
      exact ⟨h1, h2, h3 (.inr hpc)⟩
  · -- TryPop has loaded the top
    rename_i c htask hpc
    rw [htask] at hok hcall
    have hx : Known h (some c) := by have := hok.2; rwa [hpc] at this
    refine hi.turn htodo hthold hoth he fresh_idle (fun b => ?_) ⟨rfl, hx⟩ (by rw [htask]; rfl)
      fun s' hv => (hcall s' hv).1
    rw [htask, hpc]
    simp [Op.hold, Op.idle, Pc.hold, Res.hold, Task.hold, Task.handles, dstrong]
  · -- the CAS of TryPop
    rename_i c htask
    rw [htask] at hok hcall
    refine hi.callCas hok.1 hoth he (fun b hb => ?_) (fun b => ?_) ⟨hok.2, rfl, hok.2, rfl, rfl⟩
      (by rw [htask]; rfl) fun s' hv => ⟨(hcall s' hv).1, (hcall s' hv).2⟩
    · exact State.one_le_ext_of_next (hi.lt_allocs (hok.2 c rfl)) hb
    · rw [htask]
      simp [Task.hold, Task.handles]
  · -- TryPop has taken out the top
    rename_i c e htask hpc
    rw [htask] at hok hcall
    have hcomm : committed (s.ops t) = true := by simp [committed, hpc]
    obtain rfl : e = some c := by
      simp only [TaskOk, CasOk, hpc] at hok
      exact hok.2.1
    refine hi.turn htodo hthold hoth he (fresh_reset c) (fun b => ?_) ⟨rfl, (fresh_reset c).pub⟩
      (by rw [htask]; rfl) fun s' hv => ?_
    · rw [htask, hpc]
      by_cases hb : c = b <;>
        simp [Op.hold, Op.reset, Pc.hold, Res.hold, Task.hold, Task.handles, dstrong, is, hb]
    · obtain ⟨h1, h2⟩ := hcall s' hv
      rw [hcomm, hv] at h2
      exact ⟨h1, c, h2⟩
  · -- the CAS of TryPop has failed, and top_ was empty
    rename_i c htask hpc
    rw [htask] at hok hcall
    have hcomm : committed (s.ops t) = false := by simp [committed, hpc]
    refine hi.turn htodo hthold hoth he fresh_load (fun b => ?_) ⟨fresh_load.pub, trivial⟩
      (by rw [htask]; rfl) fun s' hv => ?_
    · rw [htask, hpc]
      rfl
    · obtain ⟨h1, h2⟩ := hcall s' hv
      rw [hcomm] at h2
      exact ⟨⟨h1, h2⟩, fun hempty => by rcases hempty with ⟨r, w, hw, -⟩ | hw <;> cases hw⟩
  · -- the CAS of TryPop has failed
    rename_i c e htask hpc
    rw [htask] at hok hcall
    have hcomm : committed (s.ops t) = false := by simp [committed, hpc]
    refine hi.turn htodo hthold hoth he (fresh_reset e) (fun b => ?_) ⟨rfl, (fresh_reset e).pub⟩
      (by rw [htask]; rfl) fun s' hv => ?_
    · rw [htask, hpc]
      by_cases hb : e = b <;>
        simp [Op.hold, Op.reset, Pc.hold, Res.hold, Task.hold, Task.handles, dstrong, is, hb]
    · obtain ⟨h1, h2⟩ := hcall s' hv
      rw [hcomm] at h2
      exact ⟨h1, h2⟩
  · -- the next iteration
    rename_i htask hpc
    rw [htask] at hok hcall
    refine hi.turn htodo hthold hoth he fresh_load (fun b => ?_) ⟨fresh_load.pub, trivial⟩
      (by rw [htask]; rfl) fun s' hv => ?_
    · rw [htask, hok.1]
      rfl
    · exact ⟨hcall s' hv, fun hempty => by rcases hempty with ⟨r, w, hw, -⟩ | hw <;> cases hw⟩
  · -- curr_top is gone
    rename_i v htask hpc
    rw [htask] at hok hcall
    refine hi.turn htodo hthold hoth he fresh_idle (fun b => ?_) rfl (by rw [htask]; rfl) hcall
    rw [htask, hok.1]
    rfl

/-! ### Steps that change the nodes -/

theorem nodes_length (hi : Inv h s) : s.nodes.length ≤ s.mem.allocs := by
  have h1 : (published h).length ≤ (List.range s.mem.allocs).length :=
    (hi.nodup.subperm fun n hn => List.mem_range.2 (hi.lt_allocs hn)).length_le
  have h2 := hi.perm.length_eq
  simp only [List.length_range, published, List.length_map, List.length_append] at h1 h2
  omega

theorem next_unpublished (hi : Inv h s) {n : Nat} (hn : n ∉ published h) : s.next n = none := by
  cases hx : s.next n with
  | none => rfl
  | some b => exact absurd ((hi.order n b hx).subset List.mem_cons_self) hn

/-- The node a call works on is allocated. -/
theorem node_lt (hi : Inv h s) {n : Nat} (hn : (s.tasks t).node = some n) : n < s.mem.allocs := by
  have hhandle : some n ∈ (s.tasks t).handles → n < s.mem.allocs := fun hm =>
    (hi.life.of_outside (.inl (State.one_le_ext_of_handle hm))).1
  have hok := hi.tasks t
  match htask : s.tasks t, hn, hok with
  | .pushLoad k, rfl, _ | .pushTry k _, rfl, _ | .pushCas k, rfl, _ =>
    exact hhandle (by rw [htask]; exact List.mem_cons_self)
  | .popCas c, rfl, hok => exact hi.lt_allocs (hok.1 c rfl)

/-- The deletion of a node. -/
theorem del (hi : Inv h s) {sp : Bool} {b : Nat} {l : List Instr} (hop : (s.ops t).todo = .del b :: l) :
    walk (update s.next b none) s.mem.allocs (s.mem.reg ()).raw = s.nodes ∧
    Inv ((.go t sp, s) :: h) { s with
      mem := s.mem.delete b
      ops := update s.ops t ⟨(s.ops t).pc, incs (s.next b) (-1) 0 ++ l⟩
      next := update s.next b none } := by
  have hne : (s.ops t).todo ≠ [] := by rw [hop]; simp
  have he : event s (.go t sp) = none := event_todo hne
  have hl : ∀ c, Instr.pub c ∉ l := fun c => by have := hi.pubs t c; rwa [hop] at this
  have hpub : ∀ c, Instr.pub c ∉ incs (s.next b) (-1) 0 ++ l := by
    intro c hc
    rcases List.mem_append.1 hc with hc | hc
    · exact pub_not_mem_incs _ _ _ c hc
    · exact hl c hc
  -- the block was given up, so that nobody uses the node
  have hgiven : 1 ≤ given s.mem s.ops b := by
    have h1 : 1 ≤ (s.ops t).dels b := by simp [Op.dels, hop, dels]
    have h2 := Threads.le_sum (fun u => (s.ops u).dels b) t
    simp only [given] at *
    omega
  have hlt : b < s.mem.allocs := by
    by_contra hn
    have := hi.life.fresh b (by omega)
    omega
  have hnodes : ∀ n ∈ s.nodes, n ≠ b := by
    rintro n hn rfl
    have := hi.nodes_alive n hn
    omega
  have hpublished : published ((.go t sp, s) :: h) = published h := by
    rw [published, pushes_none he, published]
  have hknown : Known ((.go t sp, s) :: h) = Known h := by funext x; simp only [Known, hpublished]
  have hchain : Chain (update s.next b none) (s.mem.reg ()).raw s.nodes :=
    hi.chain.congr fun n hn => update_of_ne (hnodes n hn) ..
  have hnodes' : walk (update s.next b none) s.mem.allocs (s.mem.reg ()).raw = s.nodes :=
    hchain.walk hi.nodes_length
  generalize hop' : (⟨(s.ops t).pc, incs (s.next b) (-1) 0 ++ l⟩ : Op Unit) = op'
  have hcomm : committed op' = committed (s.ops t) := by subst hop'; rfl
  have howns : ∀ u, ownNode (update s.ops t op' u) (s.tasks u) = ownNode (s.ops u) (s.tasks u) := by
    intro u
    by_cases hu : u = t
    · subst hu; rw [update_self]; cases s.tasks u <;> simp only [ownNode, hcomm]
    · rw [update_of_ne hu]
  have htask : ∀ u, TaskOk (Known h) (update s.next b none) (s.ops u) (s.tasks u) := fun u =>
    (hi.tasks u).mono (fun _ hx => hx) fun c hc hu => update_of_ne (by
      rintro rfl
      have := (hi.popCas_alive hc hu).2
      omega) ..
  refine ⟨hnodes', ?_, fun u => ?_, fun u => ?_, ?_, ?_, ?_, fun n k hk => ?_, ?_, ?_, fun n hn => ?_,
    fun u => ?_⟩
  · subst hop'
    refine hi.life.del hop (fun c => ?_) (State.ext_nonneg _)
    have := nextExt_update s.next hlt none c
    rw [is_none] at this
    simp only [State.ext, Mem.delete]
    omega
  · by_cases hu : u = t
    · subst hu hop'; simp only [update_self]; exact fun c hc => hpub c (List.mem_of_mem_tail hc)
    · simp only [update_of_ne hu]; exact hi.pubs u
  · rw [hknown]
    by_cases hu : u = t
    · subst hu hop'
      simp only [update_self]
      refine (htask u).todo hne hpub fun hrel c ds dt hc => ?_
      rcases List.mem_append.1 hc with hc | hc
      · cases hn : s.next b <;> simp [incs, hn] at hc
        omega
      · exact hrel c ds dt (by rw [hop]; exact List.mem_cons_of_mem _ hc)
    · simp only [update_of_ne hu]; exact htask u
  · simp only [State.nodes, Mem.delete, hnodes']; exact hchain
  · simp only [State.nodes, Mem.delete, hnodes']
    rw [pushes_none he, pops_none he]; exact hi.perm
  · rw [hpublished]; exact hi.nodup
  · rw [hpublished]
    by_cases hn : n = b
    · subst hn; simp at hk
    · simp only [update_of_ne hn] at hk; exact hi.order n k hk
  · simp only [hpublished, howns, Mem.delete]; exact hi.allocated
  · simp only [hpublished, howns]; exact hi.own
  · by_cases hnb : n = b
    · subst hnb; simp
    · simp only [update_of_ne hnb]
      exact hi.ended n ((List.mem_cons.1 hn).resolve_left hnb)
  · have hlater : CallOk u ((.go t sp, s) :: h) { s with
        mem := s.mem.delete b, ops := update s.ops t op', next := update s.next b none }
        (s.ops u) (s.tasks u) :=
      (hi.calls u).later rfl (fun e => by rw [he]; simp) fun _ _ => rfl
    by_cases hu : u = t
    · subst hu hop'; simp only [update_self]; exact hlater.todo _
    · simp only [update_of_ne hu]; exact hlater

/-- The successful CAS of a `Push`. -/
theorem publish (hi : Inv h s) {sp : Bool} {n : Nat} {w : StampedPtr Nat} {e : Handle} {l : List Instr}
    (ht : s.tasks t = .pushCas n) (htodo : (s.ops t).todo = []) (hlim : (s.ops t).Limited s.mem)
    (hpc : (s.ops t).pc = .casTry () w e (some n)) (he : Known h e)
    (hcas : sp = false ∧ s.mem.reg () = (StampedPtr.mk e w.stamp).packed)
    (hl : l = (some n).toList.map .pub ++ incs e (-1) ((w.stamp : Int) - 1) ++ incs (some n) (-1) 0)
    (hs : pcStep s.mem sp (s.ops t).pc = some (s.mem.setReg () ⟨some n, 0⟩, ⟨.done (.cas true e), l⟩)) :
    State.nodes { s with
      mem := s.mem.setReg () ⟨some n, 0⟩
      ops := update s.ops t ⟨.done (.cas true none), l⟩
      next := update s.next n e } = n :: s.nodes ∧
    Inv ((.go t sp, s) :: h) { s with
      mem := s.mem.setReg () ⟨some n, 0⟩
      ops := update s.ops t ⟨.done (.cas true none), l⟩
      next := update s.next n e } := by
  have hev : event s (.go t sp) = some (t, .push n (s.value n)) := by
    simp only [event, ht, htodo, hpc, hcas, and_self, if_true]
  have hpushes : pushes ((.go t sp, s) :: h) = (n, s.value n) :: pushes h := by simp [pushes, hev]
  have hpops : pops ((.go t sp, s) :: h) = pops h := by simp [pops, hev]
  have hpublished : published ((.go t sp, s) :: h) = n :: published h := by
    rw [published, hpushes, List.map_cons, published]
  have hknown : ∀ x, Known h x → Known ((.go t sp, s) :: h) x := fun x hx b hb => by
    rw [hpublished]; exact List.mem_cons_of_mem _ (hx b hb)
  have hown : ownNode (s.ops t) (s.tasks t) = some n := by simp [ownNode, ht, committed, hpc]
  obtain ⟨hfresh, huniq⟩ := hi.own t n hown
  have hlt : n < s.mem.allocs := (hi.allocated n).2 (.inr ⟨t, hown⟩)
  have hnext : s.next n = none := hi.next_unpublished hfresh
  have hreg : (s.mem.reg ()).raw = e := by rw [hcas.2]; rfl
  have hchain : Chain (update s.next n e) (some n) (n :: s.nodes) := by
    refine ⟨rfl, ?_⟩
    rw [update_self, ← hreg]
    exact hi.chain.congr fun k hk => update_of_ne (fun hkn : k = n => hfresh (hkn ▸ hi.nodes_published hk)) ..
  have hlen : (n :: s.nodes).length ≤ s.mem.allocs := by
    have h1 : (n :: published h).length ≤ (List.range s.mem.allocs).length :=
      ((List.nodup_cons.2 ⟨hfresh, hi.nodup⟩).subperm fun k hk => by
        rw [List.mem_range]
        rcases List.mem_cons.1 hk with rfl | hk
        · exact hlt
        · exact hi.lt_allocs hk).length_le
    have h2 := hi.perm.length_eq
    simp only [List.length_range, published, List.length_map, List.length_append, List.length_cons] at *
    omega
  have hreg' : ((s.mem.setReg () ⟨some n, 0⟩).reg ()).raw = some n := by simp [Mem.setReg]
  have hnodes : State.nodes { s with
      mem := s.mem.setReg () ⟨some n, 0⟩
      ops := update s.ops t ⟨.done (.cas true none), l⟩
      next := update s.next n e } = n :: s.nodes := by
    simp only [State.nodes, hreg']
    exact hchain.walk hlen
  have hcomm : ∀ u, ownNode (update s.ops t ⟨.done (.cas true none), l⟩ u) (s.tasks u) =
      if u = t then none else ownNode (s.ops u) (s.tasks u) := by
    intro u
    by_cases hu : u = t
    · subst hu; simp [ownNode, ht, committed]
    · rw [update_of_ne hu, if_neg hu]
  refine ⟨hnodes, ?_, fun u => ?_, fun u => ?_, ?_, ?_, ?_, fun k b hk => ?_, fun k => ?_, fun u k hk => ?_,
    fun k hk => ?_, fun u => ?_⟩
  · have hlife := hi.life.access htodo hlim hs
    rw [← update_idem (f := s.ops) (a := t) (v := ⟨.done (.cas true e), l⟩)]
    refine hlife.transfer ⟨trivial, trivial⟩ (by rw [hl]; exact published_wf none e (some n) _)
      (State.ext_nonneg _) (fun b => ?_) (fun b => ?_) (fun b => ?_) fun b => ?_
    · have h1 := nextExt_update s.next hlt e b
      rw [hnext, is_none] at h1
      rw [update_self]
      simp only [State.ext, Mem.setReg, Op.hold, Pc.hold, Res.hold, is_none]
      omega
    · rw [update_self]; rfl
    · rw [update_self]; rfl
    · rw [update_self]; rfl
  · by_cases hu : u = t
    · subst hu
      have hfirst : Op.PubFirst ⟨.done (.cas true e), l⟩ := pcStep_pubFirst hs
      simp only [update_self]
      exact hfirst
    · simp only [update_of_ne hu]; exact hi.pubs u
  · by_cases hu : u = t
    · subst hu
      simp only [update_self, ht]
      subst hl
      refine ⟨rfl, fun b ds dt hb => ?_, fun b hb => ?_⟩
      · cases e <;> simp [incs] at hb <;> omega
      · simpa [pub_not_mem_incs, eq_comm] using hb
    · simp only [update_of_ne hu]
      refine (hi.tasks u).mono hknown fun c hc _ => update_of_ne ?_ ..
      rintro rfl
      have hok := hi.tasks u
      rw [hc] at hok
      exact hfresh (hok.1 c rfl)
  · rw [hnodes]; simp only [hreg']; exact hchain
  · rw [hnodes, hpushes, hpops, List.map_cons]
    exact (hi.perm.cons _).trans List.perm_middle.symm
  · rw [hpublished]; exact List.nodup_cons.2 ⟨hfresh, hi.nodup⟩
  · rw [hpublished]
    by_cases hkn : k = n
    · subst hkn
      simp only [update_self] at hk
      exact (List.singleton_sublist.2 (he b hk)).cons_cons k
    · simp only [update_of_ne hkn] at hk
      exact (hi.order k b hk).cons n
  · rw [hpublished]
    simp only [hcomm]
    refine (hi.allocated k).trans ⟨fun hk => ?_, fun hk => ?_⟩
    · rcases hk with hk | ⟨u, hu⟩
      · exact .inl (List.mem_cons_of_mem _ hk)
      · by_cases hut : u = t
        · subst hut
          rw [hown] at hu
          left
          rw [Option.some.inj hu]
          exact List.mem_cons_self
        · exact .inr ⟨u, by rw [if_neg hut, hu]⟩
    · rcases hk with hk | ⟨u, hu⟩
      · rcases List.mem_cons.1 hk with rfl | hk
        · exact .inr ⟨t, hown⟩
        · exact .inl hk
      · split at hu
        · cases hu
        · exact .inr ⟨u, hu⟩
  · simp only [hcomm] at hk ⊢
    split at hk
    · cases hk
    · rename_i hut
      obtain ⟨h1, h2⟩ := hi.own u k hk
      refine ⟨?_, fun u' hu' => ?_⟩
      · rw [hpublished, List.mem_cons, not_or]
        refine ⟨?_, h1⟩
        rintro rfl
        exact hut (huniq u hk)
      · split at hu'
        · cases hu'
        · exact h2 u' hu'
  · have hkn : k ≠ n := by
      rintro rfl
      have hhandle : some k ∈ (s.tasks t).handles := by rw [ht]; exact List.mem_cons_self
      exact not_deleted (hi.life.of_outside (.inl (State.one_le_ext_of_handle hhandle))).2 hk
    simp only [update_of_ne hkn]
    exact hi.ended k hk
  · by_cases hu : u = t
    · subst hu
      have hcall := hi.calls u
      rw [ht] at hcall
      obtain ⟨h1, h2⟩ := hcall
      simp only [update_self, ht]
      refine ⟨(lastCall_later rfl).trans h1, ?_⟩
      rw [show committed (s.ops u) = false by simp [committed, hpc]] at h2
      simp [callEvents, Begins, hev, h2, committed]
    · simp only [update_of_ne hu]
      refine (hi.calls u).later rfl (fun e' => ?_) fun _ _ => rfl
      rw [hev]
      simp [Ne.symm hu]

/-- The successful CAS of a `TryPop`: it takes out the top of the stack. -/
theorem pop (hi : Inv h s) {sp : Bool} {c : Nat} {w : StampedPtr Nat} {l : List Instr}
    (ht : s.tasks t = .popCas c) (htodo : (s.ops t).todo = []) (hlim : (s.ops t).Limited s.mem)
    (hpc : (s.ops t).pc = .casTry () w (some c) (s.next c))
    (hcas : sp = false ∧ s.mem.reg () = (StampedPtr.mk (some c) w.stamp).packed)
    (hl : l = (s.next c).toList.map .pub ++ incs (some c) (-1) ((w.stamp : Int) - 1) ++
      incs (s.next c) (-1) 0)
    (hs : pcStep s.mem sp (s.ops t).pc = some (s.mem.setReg () ⟨s.next c, 0⟩,
      ⟨.done (.cas true (some c)), l⟩)) :
    (∃ k, s.nodes = c :: k ∧ State.nodes { s with
      mem := s.mem.setReg () ⟨s.next c, 0⟩
      ops := update s.ops t ⟨.done (.cas true (some c)), l⟩ } = k) ∧
    Inv ((.go t sp, s) :: h) { s with
      mem := s.mem.setReg () ⟨s.next c, 0⟩
      ops := update s.ops t ⟨.done (.cas true (some c)), l⟩ } := by
  have hev : event s (.go t sp) = some (t, .pop c (s.value c)) := by
    simp only [event, ht, htodo, hpc, hcas, and_self, if_true]
  have hpushes : pushes ((.go t sp, s) :: h) = pushes h := by simp [pushes, hev]
  have hpops : pops ((.go t sp, s) :: h) = (c, s.value c) :: pops h := by simp [pops, hev]
  have hpublished : published ((.go t sp, s) :: h) = published h := by
    rw [published, hpushes, published]
  have hknown : Known ((.go t sp, s) :: h) = Known h := by funext x; simp only [Known, hpublished]
  have hreg : (s.mem.reg ()).raw = some c := by rw [hcas.2]; rfl
  obtain ⟨k, hk, hchain⟩ : ∃ k, s.nodes = c :: k ∧ Chain s.next (s.next c) k := by
    have hc := hi.chain
    rw [hreg] at hc
    cases hn : s.nodes with
    | nil => rw [hn] at hc; cases hc
    | cons n k =>
      rw [hn] at hc
      obtain rfl : c = n := Option.some.inj hc.1
      exact ⟨k, rfl, hc.2⟩
  have hlen : k.length ≤ s.mem.allocs := by
    have := hi.nodes_length
    rw [hk, List.length_cons] at this
    omega
  have hreg' : ((s.mem.setReg () ⟨s.next c, 0⟩).reg ()).raw = s.next c := by simp [Mem.setReg]
  have hnodes : State.nodes { s with
      mem := s.mem.setReg () ⟨s.next c, 0⟩
      ops := update s.ops t ⟨.done (.cas true (some c)), l⟩ } = k := by
    simp only [State.nodes, hreg']
    exact hchain.walk hlen
  have howns : ∀ u, ownNode (update s.ops t ⟨.done (.cas true (some c)), l⟩ u) (s.tasks u) =
      ownNode (s.ops u) (s.tasks u) := by
    intro u
    by_cases hu : u = t
    · subst hu; simp [ownNode, ht]
    · rw [update_of_ne hu]
  have hfirst : Op.PubFirst ⟨.done (.cas true (some c)), l⟩ := pcStep_pubFirst hs
  refine ⟨⟨k, hk, hnodes⟩, hi.life.access htodo hlim hs, fun u => ?_, fun u => ?_, ?_, ?_, ?_, ?_, ?_, ?_,
    hi.ended, fun u => ?_⟩
  · by_cases hu : u = t
    · subst hu; simp only [update_self]; exact hfirst
    · simp only [update_of_ne hu]; exact hi.pubs u
  · rw [hknown]
    by_cases hu : u = t
    · subst hu
      have hok := hi.tasks u
      rw [ht] at hok
      simp only [update_self, ht]
      subst hl
      refine ⟨hok.1, rfl, fun b ds dt hb => ?_, fun b hb => ?_⟩
      · cases hn : s.next c <;> simp [incs, hn] at hb <;> omega
      · simpa [pub_not_mem_incs, Option.mem_toList] using hb
    · simp only [update_of_ne hu]; exact hi.tasks u
  · rw [hnodes]; simp only [hreg']; exact hchain
  · rw [hpushes, hpops, hnodes]
    refine hi.perm.trans ?_
    rw [hk, List.map_cons, List.cons_append]
    exact List.perm_middle
  · rw [hpublished]; exact hi.nodup
  · rw [hpublished]; exact hi.order
  · simp only [hpublished, howns]; exact hi.allocated
  · simp only [hpublished, howns]; exact hi.own
  · by_cases hu : u = t
    · subst hu
      have hcall := hi.calls u
      rw [ht] at hcall
      obtain ⟨h1, h2⟩ := hcall
      simp only [update_self, ht]
      refine ⟨(lastCall_later rfl).trans h1, ?_⟩
      rw [show committed (s.ops u) = false by simp [committed, hpc]] at h2
      simp [callEvents, Begins, hev, h2, committed]
    · simp only [update_of_ne hu]
      refine (hi.calls u).later rfl (fun e' => ?_) fun _ _ => rfl
      rw [hev]
      simp [Ne.symm hu]

/-- `MakeShared` and the beginning of the `Load` of a `Push`. -/
theorem push (hi : Inv h s) {v : V} (ht : s.tasks t = .idle) :
    State.contents { s.set t (.pushLoad s.mem.allocs) (.load ()) with
      mem := s.mem.make, value := update s.value s.mem.allocs v } = s.contents ∧
    Inv ((.push t v, s) :: h) { s.set t (.pushLoad s.mem.allocs) (.load ()) with
      mem := s.mem.make, value := update s.value s.mem.allocs v } := by
  have hpushes : pushes ((.push t v, s) :: h) = pushes h := rfl
  have hpops : pops ((.push t v, s) :: h) = pops h := rfl
  have hpublished : published ((.push t v, s) :: h) = published h := rfl
  have hknown : Known ((.push t v, s) :: h) = Known h := rfl
  have hfresh : s.mem.allocs ∉ published h := fun hm => absurd (hi.lt_allocs hm) (Nat.lt_irrefl _)
  have hnext : s.next s.mem.allocs = none := hi.next_unpublished hfresh
  have hop : s.ops t = .idle := by have := hi.tasks t; rwa [ht] at this
  have hnodes : State.nodes { s.set t (.pushLoad s.mem.allocs) (.load ()) with
      mem := s.mem.make, value := update s.value s.mem.allocs v } = s.nodes :=
    hi.chain.walk (hi.nodes_length.trans (Nat.le_succ _))
  have howns : ∀ u, ownNode (update s.ops t (.load ()) u)
      (update s.tasks t (.pushLoad s.mem.allocs) u) =
        if u = t then some s.mem.allocs else ownNode (s.ops u) (s.tasks u) := by
    intro u
    by_cases hu : u = t
    · subst hu; simp [ownNode]
    · rw [update_of_ne hu, update_of_ne hu, if_neg hu]
  have hlt : ∀ u n, ownNode (s.ops u) (s.tasks u) = some n → n < s.mem.allocs := fun u n hn =>
    (hi.allocated n).2 (.inr ⟨u, hn⟩)
  refine ⟨?_, ?_, fun u => ?_, fun u => ?_, ?_, ?_, hi.nodup, hi.order, fun k => ?_, fun u k hk => ?_,
    hi.ended, fun u => ?_⟩
  · rw [State.contents, hnodes, State.contents]
    exact List.map_congr_left fun n hn =>
      update_of_ne (Nat.ne_of_lt (hi.lt_allocs (hi.nodes_published hn))) ..
  · have hmake : Lifetime s.mem.make s.ops (State.ext { s.set t (.pushLoad s.mem.allocs) (.load ()) with
        mem := s.mem.make, value := update s.value s.mem.allocs v }) := hi.life.make fun b => by
      have h1 := Threads.sum_update_add (fun task : Task V => task.hold b) s.tasks t
        (.pushLoad s.mem.allocs)
      have h2 := nextExt_succ hnext b
      have h3 : (s.tasks t).hold b = 0 := by rw [ht]; rfl
      have h4 : (Task.pushLoad s.mem.allocs : Task V).hold b = is (some s.mem.allocs) b := by
        simp [Task.hold, Task.handles]
      simp only [State.ext, State.set, Mem.make, h2]
      omega
    refine hmake.transfer ⟨trivial, trivial⟩ trivial (State.ext_nonneg _) (fun b => ?_) (fun b => ?_)
      (fun b => ?_) fun b => ?_
    all_goals rw [hop]; rfl
  · by_cases hu : u = t
    · subst hu
      simp only [State.set, update_self]
      exact fun b hb => by simp [Op.load] at hb
    · simp only [State.set, update_of_ne hu]; exact hi.pubs u
  · by_cases hu : u = t
    · subst hu
      simp only [State.set, update_self]
      exact ⟨fun b hb => by simp [Op.load] at hb, trivial⟩
    · simp only [State.set, update_of_ne hu]; exact hi.tasks u
  · rw [hnodes]; exact hi.chain
  · rw [hnodes, hpushes, hpops]
    have hval : s.nodes.map (fun n => (n, update s.value s.mem.allocs v n)) =
        s.nodes.map fun n => (n, s.value n) := List.map_congr_left fun n hn => by
      rw [update_of_ne (Nat.ne_of_lt (hi.lt_allocs (hi.nodes_published hn)))]
    rw [hval]; exact hi.perm
  · simp only [State.set, howns, hpublished, Mem.make]
    rw [Nat.lt_succ_iff_lt_or_eq, hi.allocated k]
    refine ⟨fun hk => ?_, fun hk => ?_⟩
    · rcases hk with (hk | ⟨u, hu⟩) | rfl
      · exact .inl hk
      · refine .inr ⟨u, ?_⟩
        rw [if_neg, hu]
        rintro rfl
        rw [ht] at hu
        cases hu
      · exact .inr ⟨t, if_pos rfl⟩
    · rcases hk with hk | ⟨u, hu⟩
      · exact .inl (.inl hk)
      · split at hu
        · exact .inr (Option.some.inj hu).symm
        · exact .inl (.inr ⟨u, hu⟩)
  · simp only [State.set, howns] at hk ⊢
    split at hk
    · rename_i hut
      obtain rfl := Option.some.inj hk
      refine ⟨hfresh, fun u' hu' => ?_⟩
      split at hu'
      · rename_i h'; rw [h', hut]
      · exact absurd (hlt u' _ hu') (Nat.lt_irrefl _)
    · obtain ⟨h1, h2⟩ := hi.own u k hk
      refine ⟨h1, fun u' hu' => ?_⟩
      split at hu'
      · obtain rfl := Option.some.inj hu'
        exact absurd (hlt u _ hk) (Nat.lt_irrefl _)
      · exact h2 u' hu'
  · by_cases hu : u = t
    · subst hu
      simp only [State.set, update_self]
      exact ⟨by simp [lastCall, Begins], by simp [callEvents, Begins]⟩
    · simp only [State.set, update_of_ne hu]
      refine (hi.calls u).later (decide_eq_false fun e => hu e.symm) (fun e => by simp [event]) fun n hn => ?_
      exact update_of_ne (Nat.ne_of_lt (hi.node_lt hn)) ..

/-- What a step of an operation does to the stack. -/
theorem access_cases (hi : Inv h s) {sp : Bool} {x : Mem Unit × Op Unit} (htodo : (s.ops t).todo = [])
    (hlim : (s.ops t).Limited s.mem) (hs : pcStep s.mem sp (s.ops t).pc = some x) :
    Inv ((.go t sp, s) :: h) (s.after t x) ∧
      Applies ((event s (.go t sp)).map Prod.snd) s.contents (s.after t x).contents := by
  obtain ⟨m', op'⟩ := x
  obtain ⟨hpcok, hcalm⟩ := hi.life.pcs t
  have hok := hi.tasks t
  have heta : (⟨(s.ops t).pc, []⟩ : Op Unit) = s.ops t := by rw [← htodo]
  have hafter : (∀ n e, s.tasks t = .pushCas n → op'.pc ≠ .done (.cas true e)) →
      s.after t (m', op') = { s with mem := m', ops := update s.ops t op' } := by
    intro hne
    unfold State.after
    split
    · rename_i n e htask _ hpc
      exact absurd hpc (hne n e htask)
    · rename_i hb
      rw [htodo] at hb
      cases hb
    · rfl
  have hsame : event s (.go t sp) = none → (m'.reg ()).raw = (s.mem.reg ()).raw →
      s.after t (m', op') = { s with mem := m', ops := update s.ops t op' } →
      Applies ((event s (.go t sp)).map Prod.snd) s.contents (s.after t (m', op')).contents := by
    intro he hreg hx
    rw [he, hx]
    simp only [State.contents, State.nodes, hreg, (pcStep_frame hs).2.2.1]
    rfl
  have hnone : (∀ w e d, (s.ops t).pc ≠ .casTry () w e d) → event s (.go t sp) = none := fun hne =>
    event_pc fun w e d hw => absurd hw (hne w e d)
  have hload : ∀ {K : Handle → Prop}, LoadOk K (s.ops t) → ∀ w e d, (s.ops t).pc ≠ .casTry () w e d := by
    intro K hl w e d hw
    have := hl.2
    rw [hw] at this
    exact this
  have hcomm : committed (s.ops t) = false := by
    unfold committed
    split
    · rename_i hpc; rw [hpc] at hs; cases hs
    · rfl
  match htask : s.tasks t, hok with
  | .idle, hok | .pushed, hok | .popped _, hok => rw [hok] at hs; cases hs
  | .pushTry _ _, hok | .popTry _, hok => rw [hok.1] at hs; cases hs
  | .pushEnd, hok | .popRetry, hok | .popEnd _, hok => rw [hok.1] at hs; cases hs
  | .pushLoad n, hok =>
    have he := hnone (hload hok)
    obtain ⟨hreg, hok'⟩ := loadOk_access (by rw [heta]; exact hok) hcalm hi.reg_known hs
    have hx := hafter fun n e hn => by rw [htask] at hn; cases hn
    refine ⟨?_, hsame he hreg hx⟩
    rw [hx]
    refine hi.access htodo hlim hs he hreg (by rw [htask]; exact hok') (by rw [htask]; rfl) fun s' hv => ?_
    have hcall : CallOk t ((.go t sp, s) :: h) s' (s.ops t) (s.tasks t) :=
        (hi.calls t).later rfl (fun e => by rw [he]; simp)
      fun n _ => congrFun hv n
    rw [htask] at hcall ⊢
    exact hcall
  | .popLoad, hok =>
    have he := hnone (hload hok)
    have hok : LoadOk (Known h) ⟨(s.ops t).pc, []⟩ := by rw [heta]; exact hok
    obtain ⟨hreg, hok'⟩ := loadOk_access hok hcalm hi.reg_known hs
    have hx := hafter fun n e hn => by rw [htask] at hn; cases hn
    refine ⟨?_, hsame he hreg hx⟩
    rw [hx]
    refine hi.access htodo hlim hs he hreg (by rw [htask]; exact hok') (by rw [htask]; rfl) fun s' hv => ?_
    have hcall : CallOk t ((.go t sp, s) :: h) s' (s.ops t) (s.tasks t) :=
        (hi.calls t).later rfl (fun e => by rw [he]; simp)
      fun n _ => congrFun hv n
    rw [htask] at hcall ⊢
    refine ⟨hcall.1, fun hempty => ?_⟩
    rcases loadOk_empty hok hcalm hs hempty with hn | hn
    · refine During.later (During.now ?_) (by simp [Begins])
      simp [State.contents, State.nodes, hn, walk_none]
    · exact hcall.2 hn
  | .pushCas n, hok =>
    have hok : CasOk (Known h) (fun _ => True) (· = none) (some n) ⟨(s.ops t).pc, []⟩ := by
      rw [heta]; exact hok
    rcases casOk_access hok hpcok hcalm hi.reg_known hs with ⟨⟨hreg, hok', hcomm'⟩, hne⟩ | hcas
    · have he := event_pc hne
      have hx := hafter fun _ e _ hd => by simp [committed, hd] at hcomm'
      refine ⟨?_, hsame he hreg hx⟩
      rw [hx]
      refine hi.access htodo hlim hs he hreg (by rw [htask]; exact hok')
        (by rw [htask]; simp only [ownNode, hcomm, hcomm']) fun s' hv => ?_
      have hcall : CallOk t ((.go t sp, s) :: h) s' (s.ops t) (s.tasks t) :=
        (hi.calls t).later rfl (fun e => by rw [he]; simp)
        fun n _ => congrFun hv n
      rw [htask] at hcall ⊢
      exact ⟨hcall.1, by rw [hcall.2, hcomm, hcomm']⟩
    · obtain ⟨w, e, hpc, hK, -, hcas, rfl, rfl⟩ := hcas
      obtain ⟨hnodes, hinv⟩ := hi.publish htask htodo hlim hpc hK hcas rfl hs
      have hev : event s (.go t sp) = some (t, .push n (s.value n)) := by
        simp only [event, htask, htodo, hpc, hcas, and_self, if_true]
      have hx : ∀ l, s.after t (s.mem.setReg () ⟨some n, 0⟩, ⟨.done (.cas true e), l⟩) = { s with
          mem := s.mem.setReg () ⟨some n, 0⟩
          ops := update s.ops t ⟨.done (.cas true none), l⟩
          next := update s.next n e } := fun l => by simp only [State.after, htask, htodo]
      rw [hx]
      refine ⟨hinv, ?_⟩
      rw [hev]
      simp only [Option.map_some, Applies, State.contents, hnodes, List.map_cons]
  | .popCas c, hok =>
    have hok : CasOk (Known h) (· = some c) (· = some c) (s.next c) ⟨(s.ops t).pc, []⟩ := by
      rw [heta]; exact hok.2
    have hknown : Known h (some c) := by have := hi.tasks t; rw [htask] at this; exact this.1
    rcases casOk_access hok hpcok hcalm hi.reg_known hs with ⟨⟨hreg, hok', hcomm'⟩, hne⟩ | hcas
    · have he := event_pc hne
      have hx := hafter fun n e hn => by rw [htask] at hn; cases hn
      refine ⟨?_, hsame he hreg hx⟩
      rw [hx]
      refine hi.access htodo hlim hs he hreg (by rw [htask]; exact ⟨hknown, hok'⟩) (by rw [htask]; rfl)
        fun s' hv => ?_
      have hcall : CallOk t ((.go t sp, s) :: h) s' (s.ops t) (s.tasks t) :=
        (hi.calls t).later rfl (fun e => by rw [he]; simp)
        fun n _ => congrFun hv n
      rw [htask] at hcall ⊢
      exact ⟨hcall.1, by rw [hcall.2, hcomm, hcomm']⟩
    · obtain ⟨w, e, hpc, -, rfl, hcas, rfl, rfl⟩ := hcas
      have hx := hafter fun n e hn => by rw [htask] at hn; cases hn
      obtain ⟨⟨k, hk, hnodes⟩, hinv⟩ := hi.pop htask htodo hlim hpc hcas rfl hs
      have hev : event s (.go t sp) = some (t, .pop c (s.value c)) := by
        simp only [event, htask, htodo, hpc, hcas, and_self, if_true]
      rw [hx]
      refine ⟨hinv, ?_⟩
      rw [hev]
      simp only [Option.map_some, Applies, State.contents, hnodes, hk, List.map_cons]

theorem go (hi : Inv h s) {sp : Bool} (hlim : (s.ops t).Limited s.mem)
    (hs : step s (.go t sp) = some s') :
    Inv ((.go t sp, s) :: h) s' ∧ Applies ((event s (.go t sp)).map Prod.snd) s.contents s'.contents := by
  have hcount : ∀ {i : Instr} {l : List Instr} {b : Nat} {ds dt : Int}, (s.ops t).todo = i :: l →
      i.adds = some (b, ds, dt) →
      Inv ((.go t sp, s) :: h)
        (s.after t (s.mem.count b ds dt, ⟨(s.ops t).pc, (s.mem.count b ds dt).dropped b ++ l⟩)) ∧
      Applies ((event s (.go t sp)).map Prod.snd) s.contents
        (s.after t (s.mem.count b ds dt, ⟨(s.ops t).pc, (s.mem.count b ds dt).dropped b ++ l⟩)).contents := by
    intro i l b ds dt htodo hadds
    have hafter : s.after t (s.mem.count b ds dt, ⟨(s.ops t).pc, (s.mem.count b ds dt).dropped b ++ l⟩) =
        { s with mem := s.mem.count b ds dt
                 ops := update s.ops t ⟨(s.ops t).pc, (s.mem.count b ds dt).dropped b ++ l⟩ } := by
      unfold State.after
      split
      · simp_all
      · rename_i heq
        rw [htodo, List.cons.injEq] at heq
        rw [heq.1] at hadds
        cases hadds
      · rfl
    rw [hafter, event_todo (by rw [htodo]; simp)]
    exact ⟨hi.count htodo hadds, rfl⟩
  simp only [step] at hs
  split at hs
  · rename_i hq
    rw [event_quiet hq]
    exact ⟨hi.advance hq hs, advance_contents hs⟩
  · obtain ⟨x, hx, rfl⟩ := Option.map_eq_some_iff.1 hs
    unfold opStep at hx
    split at hx
    · rename_i htodo
      exact hi.access_cases htodo hlim hx
    · rename_i htodo
      obtain rfl := Option.some.inj hx
      exact hcount htodo rfl
    · rename_i htodo
      obtain rfl := Option.some.inj hx
      exact hcount htodo rfl
    · rename_i b l htodo
      obtain rfl := Option.some.inj hx
      obtain ⟨hnodes, hinv⟩ := hi.del htodo
      have hafter : s.after t (s.mem.delete b, ⟨(s.ops t).pc, incs (s.next b) (-1) 0 ++ l⟩) =
          { s with mem := s.mem.delete b
                   ops := update s.ops t ⟨(s.ops t).pc, incs (s.next b) (-1) 0 ++ l⟩
                   next := update s.next b none } := by
        simp only [State.after, htodo]
      rw [hafter, event_todo (by rw [htodo]; simp)]
      refine ⟨hinv, ?_⟩
      change (walk (update s.next b none) s.mem.allocs (s.mem.reg ()).raw).map s.value = s.contents
      rw [hnodes]
      rfl

theorem step (hi : Inv h s) (hlim : Limited s a) (hs : LockFreeStack.step s a = some s') :
    Inv ((a, s) :: h) s' ∧ Applies ((event s a).map Prod.snd) s.contents s'.contents := by
  cases a with
  | push t v =>
    simp only [LockFreeStack.step] at hs
    split at hs
    · rename_i htask
      obtain rfl := Option.some.inj hs
      exact (hi.push htask).symm
    · cases hs
  | tryPop t =>
    simp only [LockFreeStack.step] at hs
    split at hs
    · rename_i htask
      obtain rfl := Option.some.inj hs
      have hop : s.ops t = .idle := by have := hi.tasks t; rwa [htask] at this
      refine ⟨hi.turn (by rw [hop]; rfl) (fun b => by rw [hop]; rfl) (fun u hu => decide_eq_false fun e => hu e.symm) rfl
        fresh_load (fun b => ?_) ⟨fresh_load.pub, trivial⟩ (by rw [htask]; rfl) fun s' _ => ?_, rfl⟩
      · rw [hop, htask]; rfl
      · refine ⟨⟨by simp [lastCall, Begins], by simp [callEvents, Begins]⟩, fun hempty => ?_⟩
        rcases hempty with ⟨r, w, hw, -⟩ | hw <;> cases hw
    · cases hs
  | go t sp => exact hi.go hlim hs
  | ret t =>
    have hret : (s.ops t = .idle) → (∀ b, (s.tasks t).hold b = 0) → ownNode (s.ops t) (s.tasks t) = none →
        Inv ((.ret t, s) :: h) (s.set t .idle .idle) := fun hop hhold hown =>
      hi.turn (by rw [hop]; rfl) (fun b => by rw [hop]; rfl) (fun _ _ => rfl) rfl fresh_idle
        (fun b => by rw [hhold, hop]; rfl) rfl hown.symm fun _ _ => trivial
    have hok := hi.tasks t
    simp only [LockFreeStack.step] at hs
    split at hs
    · rename_i htask
      obtain rfl := Option.some.inj hs
      rw [htask] at hok
      exact ⟨hret hok (fun b => by rw [htask]; rfl) (by rw [htask]; rfl), rfl⟩
    · rename_i htask
      obtain rfl := Option.some.inj hs
      rw [htask] at hok
      exact ⟨hret hok (fun b => by rw [htask]; rfl) (by rw [htask]; rfl), rfl⟩
    · cases hs

theorem init [Inhabited V] : Inv [] (LockFreeStack.init : State V ι) := by
  have hnext : ∀ k b, nextExt (fun _ => none) k b = 0 := fun k b => by simp [nextExt]
  have hext : ∀ b, (LockFreeStack.init : State V ι).ext b = 0 := fun b => by
    simp [State.ext, LockFreeStack.init, Task.hold, Task.handles, hnext]
  have hregs : ∀ b, (LockFreeStack.init : State V ι).mem.regs b = 0 := fun b => by
    simp [Mem.regs, LockFreeStack.init, StampedPtr.null]
  have hgiven : ∀ b, given (LockFreeStack.init : State V ι).mem (LockFreeStack.init : State V ι).ops b = 0 :=
    fun b => by simp [given, LockFreeStack.init, Op.dels, Op.idle, dels]
  refine ⟨⟨fun r => Nat.zero_le _, fun t => ⟨trivial, trivial⟩, fun t => trivial, State.ext_nonneg _,
    fun b => ?_, fun b => ?_, fun b _ => hgiven b, fun b => (hgiven b).le.trans zero_le_one,
    fun b _ => ⟨fun t => rfl, fun t => rfl, fun t => rfl, hext b, hregs b⟩, fun b hb => (Nat.not_lt_zero b hb).elim⟩,
    fun t b => List.not_mem_nil, fun t => rfl, rfl, List.Perm.refl _,
    List.nodup_nil, fun n b hb => (Option.some_ne_none b hb.symm).elim, fun n => ?_, fun t n hn => (Option.some_ne_none n hn.symm).elim, fun n hn => (List.not_mem_nil hn).elim,
    fun t => trivial⟩
  · rw [hext, hregs]
    simp [LockFreeStack.init, Op.window, Op.hold, Op.idle, Pc.hold, dstrong, window]
  · simp [Mem.stamps, LockFreeStack.init, Op.thold, Op.idle, Pc.thold, dtransient, stampOf, StampedPtr.null]
  · simp [LockFreeStack.init, published, pushes, ownNode]

/-! ### What it says -/

/-- Nothing is read or written in a deleted node. -/
theorem accesses_alive (hi : Inv h s) {n : Nat} (hn : n ∈ s.accesses t) : n ∉ s.mem.deleted := by
  have hhandle : some n ∈ (s.tasks t).handles → n ∉ s.mem.deleted := fun hm =>
    not_deleted (hi.life.of_outside (.inl (State.one_le_ext_of_handle hm))).2
  have hok := hi.tasks t
  unfold State.accesses at hn
  split at hn
  · rename_i k htask
    exact hhandle (by rw [htask]; exact List.mem_cons.2 (.inl (congrArg some (List.mem_singleton.1 hn))))
  · rename_i k x htask
    exact hhandle (by rw [htask]; exact List.mem_cons.2 (.inl (congrArg some (List.mem_singleton.1 hn))))
  · rename_i k htask
    exact hhandle (by rw [htask]; exact List.mem_cons.2 (.inl (congrArg some (List.mem_singleton.1 hn))))
  · rename_i c htask
    rw [htask] at hok
    rcases List.mem_cons.1 hn with rfl | hn
    · exact hhandle (by rw [htask]; exact List.mem_cons_self)
    · have hlt := hi.lt_allocs (hok.2 c rfl)
      exact not_deleted (hi.life.of_outside (.inl (State.one_le_ext_of_next hlt (Option.mem_toList.1 hn)))).2
  · rename_i c htask
    split at hn
    · rename_i hpc
      rw [List.mem_singleton] at hn
      subst hn
      exact not_deleted (hi.popCas_alive htask (by simp [Using, hpc])).2
    · cases hn
  · cases hn

theorem deleted_popped (hi : Inv h s) {n : Nat} (hn : n ∈ s.mem.deleted) : ∃ v, (n, v) ∈ pops h := by
  have hgiven : 1 ≤ given s.mem s.ops n := by
    have := List.count_pos_iff.2 hn
    simp only [given]
    omega
  have hlt : n < s.mem.allocs := by
    by_contra hge
    have := hi.life.fresh n (by omega)
    omega
  rcases (hi.allocated n).1 hlt with hp | ⟨t, ht⟩
  · obtain ⟨⟨k, v⟩, hm, hkn⟩ := List.mem_map.1 hp
    obtain rfl : k = n := hkn
    rcases List.mem_append.1 (hi.perm.mem_iff.1 hm) with hm | hm
    · exact ⟨v, hm⟩
    · obtain ⟨j, hj, heq⟩ := List.mem_map.1 hm
      obtain ⟨rfl, -⟩ := Prod.mk.inj heq
      have := hi.nodes_alive j hj
      omega
  · have hh : some n ∈ (s.tasks t).handles := by
      cases htask : s.tasks t <;> rw [htask] at ht <;> simp only [ownNode, reduceCtorEq] at ht
      · rw [← ht]; exact List.mem_cons_self
      · rw [← ht]; exact List.mem_cons_self
      · split at ht
        · cases ht
        · rw [← ht]; exact List.mem_cons_self
    have := (hi.life.of_outside (.inl (State.one_le_ext_of_handle hh))).2
    omega

/-- A node that was not deleted is referred to. -/
theorem referred (hi : Inv h s) {n : Nat} (hlt : n < s.mem.allocs) (hn : n ∉ s.mem.deleted) :
    s.Referred n := by
  rcases hi.life.referred hlt hn with hext | hreg | ⟨t, ht⟩
  · by_cases htasks : ∑ t, (s.tasks t).hold n = 0
    · have hnext : nextExt s.next s.mem.allocs n ≠ 0 := by
        simp only [State.ext] at hext
        omega
      obtain ⟨k, -, hk⟩ := Finset.exists_ne_zero_of_sum_ne_zero hnext
      have hk : s.next k = some n := by
        by_contra hne
        exact hk (is_eq_zero.2 hne)
      refine .inr (.inr ⟨k, fun hd => ?_, hk⟩)
      rw [hi.ended k hd] at hk
      cases hk
    · obtain ⟨t, -, ht⟩ := Finset.exists_ne_zero_of_sum_ne_zero htasks
      refine .inl ⟨t, .inl ?_⟩
      by_contra hm
      refine ht (List.sum_eq_zero fun x hx => ?_)
      obtain ⟨y, hy, rfl⟩ := List.mem_map.1 hx
      exact is_eq_zero.2 fun e => hm (e ▸ hy)
  · right; left
    by_contra hne
    simp [Mem.regs, is_eq_zero.2 hne] at hreg
  · exact .inl ⟨t, .inr (Op.refersTo_of_owns ht)⟩

/-- Induction over the nodes in the order of their publication, the last one first. -/
theorem induction_published {P : List Nat} (hP : P.Nodup) {Q : Nat → Prop}
    (hstep : ∀ n ∈ P, (∀ k, List.Sublist [k, n] P → Q k) → Q n) : ∀ n ∈ P, Q n := by
  induction P with
  | nil => simp
  | cons a P ih =>
    obtain ⟨ha, hP⟩ := List.nodup_cons.1 hP
    have hQa : Q a := hstep a List.mem_cons_self fun k hk => by
      exfalso
      cases hk with
      | cons _ hk => exact ha (hk.subset (by simp))
      | cons_cons _ hk => exact ha (List.singleton_sublist.1 hk)
    intro n hn
    rcases List.mem_cons.1 hn with rfl | hn
    · exact hQa
    · refine ih hP (fun m hm hk => hstep m (List.mem_cons_of_mem _ hm) fun k hkm => ?_) n hn
      cases hkm with
      | cons _ hkm => exact hk k hkm
      | cons_cons _ hkm => exact hQa

/-- When all calls have returned, the nodes that are left are those of the stack. -/
theorem idle_nodes (hi : Inv h s) (hidle : ∀ t, s.tasks t = .idle) :
    ∀ n ∈ published h, n ∉ s.mem.deleted → n ∈ s.nodes := by
  refine induction_published hi.nodup fun n hn hprev hd => ?_
  have hchain : ∀ x l, Chain s.next x l → (x = some n → n ∈ l) ∧ ∀ k ∈ l, s.next k = some n → n ∈ l := by
    intro x l
    induction l generalizing x with
    | nil => rintro rfl; simp
    | cons j l ih =>
      rintro ⟨rfl, hc⟩
      obtain ⟨h1, h2⟩ := ih _ hc
      refine ⟨fun e => ?_, fun k hk hx => List.mem_cons_of_mem _ ?_⟩
      · rw [Option.some.inj e]; exact List.mem_cons_self
      · rcases List.mem_cons.1 hk with rfl | hk
        · exact h1 hx
        · exact h2 k hk hx
  rcases hi.referred (hi.lt_allocs hn) hd with ⟨t, ht⟩ | hreg | ⟨k, hk, hkn⟩
  · have hop : s.ops t = .idle := by have := hi.tasks t; rwa [hidle t] at this
    rw [hidle t, hop] at ht
    simp [Task.handles, Op.RefersTo, Op.idle, Pc.handles] at ht
  · exact (hchain _ _ hi.chain).1 hreg
  · exact (hchain _ _ hi.chain).2 k (hprev k (hi.order k n hkn) hk) hkn

end Inv

end inv

/-! ## The stack -/

section main

variable {V ι : Type} [DecidableEq ι]

/-- `LockFreeStack` after a run: every step does to the contents what its event says; a call that is
about to return has done what it returns; the pushed nodes are those popped and those in the stack; no
step accesses a deleted node; only popped nodes are deleted, once, and all to which there is no handle,
which is all of them when all calls have returned. -/
structure Correct (h : History (State V ι) (Act V ι)) (s : State V ι) : Prop where
  lifo : ∀ a s', Limited s a → step s a = some s' →
    Applies ((event s a).map Prod.snd) s.contents s'.contents
  returns : ∀ t, Returns t h s (s.tasks t)
  balance : (pushes h).Perm (pops h ++ s.nodes.map fun n => (n, s.value n))
  distinct : ((pushes h).map Prod.fst).Nodup
  safe : ∀ t n, n ∈ s.accesses t ∨ (s.ops t).touches = some n → n ∉ s.mem.deleted
  once : s.mem.deleted.Nodup
  popped : ∀ n ∈ s.mem.deleted, ∃ v, (n, v) ∈ pops h
  unreferred : ∀ n < s.mem.allocs, ¬ s.Referred n → n ∈ s.mem.deleted
  quiescent : (∀ t, s.tasks t = .idle) → ∀ n v, (n, v) ∈ pops h → n ∈ s.mem.deleted

/-- In every run without a stamp above the limit. -/
theorem stack_correct [Fintype ι] [Inhabited V] {h : History (State V ι) (Act V ι)} {s : State V ι}
    (r : Run (system V ι) Limited h s) : Correct h s := by
  have hi : Inv h s := r.invariant (fun _ hs => hs ▸ Inv.init) fun _ _ _ _ hi hok hs => (hi.step hok hs).1
  refine ⟨fun a s' hok hs => (hi.step hok hs).2, fun t => ?_, hi.perm, hi.nodup, fun t n hn => ?_,
    hi.life.deleted_nodup, fun n hn => hi.deleted_popped hn, fun n hlt hn => ?_, fun hidle n v hn => ?_⟩
  · have hcall := hi.calls t
    match htask : s.tasks t, hcall with
    | .pushed, hcall | .popped none, hcall | .popped (some v), hcall => exact hcall
    | .idle, _ | .pushLoad _, _ | .pushTry _ _, _ | .pushCas _, _ | .pushEnd, _ | .popLoad, _
    | .popTry _, _ | .popCas _, _ | .popRetry, _ | .popEnd _, _ => trivial
  · rcases hn with hn | hn
    · exact hi.accesses_alive hn
    · exact hi.life.touches hn
  · by_contra hd
    exact hn (hi.referred hlt hd)
  · by_contra hd
    have hpub : n ∈ published h :=
      List.mem_map.2 ⟨(n, v), hi.perm.mem_iff.2 (List.mem_append_left _ hn), rfl⟩
    have hnodup := (hi.perm.map Prod.fst).nodup_iff.1 hi.nodup
    rw [List.map_append, List.map_map] at hnodup
    refine List.disjoint_of_nodup_append hnodup (List.mem_map.2 ⟨(n, v), hn, rfl⟩) ?_
    exact List.mem_map.2 ⟨n, hi.idle_nodes hidle n hpub hd, rfl⟩

/-- `Limited`, as a test. -/
def limitedCheck (s : State V ι) : Act V ι → Bool
  | .go t _ => (s.ops t).limitedCheck
  | _ => true

omit [DecidableEq ι] in
theorem limited_of_check (s : State V ι) (a : Act V ι) (h : limitedCheck s a = true) : Limited s a := by
  cases a with
  | go t sp => exact Op.limited_of_check h
  | _ => trivial

/-- Thread 0 pushes 5 and stops after the CAS that publishes the node; thread 1 pops it; then thread 0
goes on, and its last handle to the node goes last. -/
def pushPopInWindow : List (Act Nat (Fin 2)) :=
  Act.push 0 5 :: List.replicate 6 (Act.go 0 false) ++ Act.tryPop 1 :: List.replicate 14 (Act.go 1 false)
    ++ List.replicate 6 (Act.go 0 false)

theorem stack_correct_in_window : ∃ h, ∃ s : State Nat (Fin 2), Run (system Nat (Fin 2)) Limited h s ∧
    (s.mem.allocs = 1 ∧ s.mem.deleted = [0]) ∧ Correct h s := by
  obtain ⟨s, ⟨h, r⟩, hp⟩ := Reach.of_exec (system Nat (Fin 2)) pushPopInWindow
    (fun s => decide (s.mem.allocs = 1 ∧ s.mem.deleted = [0])) limited_of_check rfl (by decide)
  exact ⟨h, s, r, of_decide_eq_true hp, stack_correct r⟩

end main

end LockFreeStack
