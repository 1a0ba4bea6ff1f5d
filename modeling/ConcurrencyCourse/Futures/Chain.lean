import ConcurrencyCourse.Futures.Pipeline
import ConcurrencyCourse.Lib.Threads
import Mathlib.Data.List.GetD
import Mathlib.Order.Interval.Finset.Nat

/-!
# Sequential pipelines: what the chain computes

Each cell of the chain is one rendezvous: `SetResult` by whoever completes the future before it, `SetCallback` by the
thread that builds the chain. Where the two are decides what is in the cell (`CellOk`), and the one that exchanges
the word second submits the callback, with the result (`CellOk.exchangeResult`, `CellOk.exchangeCallback`). So the
callback of link `i` runs once, with `value i`, and what it sets the next future to is `value (i + 1)`.

Along the chain the values are the fold of the stages (`pipeline_computes`): a run in which nobody can take a step
has built the chain, and its last future has the result of the fold. There is such an end to every run
(`exists_end`), since every step brings some link closer to its end.
-/

namespace Futures.Pipeline

open Function Transition

/-! ### One rendezvous -/

section cell

variable {R κ : Type} {c : SharedState R κ} {p q : Phase} {v : Option R} {k : Option κ}

/-- What is in a cell when `SetResult(v)` is at `p` and `SetCallback(k)` at `q`. -/
structure CellOk (c : SharedState R κ) (p q : Phase) (v : Option R) (k : Option κ) : Prop where
  result : c.result = if p = .before then none else v
  callback : q ≠ .before → ¬ (p = .after ∧ q = .after) → c.callback = k
  initial : p ≠ .after → q ≠ .after → c.word = .initial
  resultSet : p = .after → q ≠ .after → c.word = .resultSet
  callbackSet : p ≠ .after → q = .after → c.word = .callbackSet
  hasResult : p ≠ .before → v.isSome = true
  hasCallback : q ≠ .before → k.isSome = true

theorem CellOk.new : CellOk (SharedState.new : SharedState R κ) .before .before v k :=
  ⟨rfl, fun h => absurd rfl h, fun _ _ => rfl, nofun, nofun, fun h => absurd rfl h, fun h => absurd rfl h⟩

theorem CellOk.emplace (h : CellOk c .before q v k) {r : R} (hv : v = some r) :
    CellOk (c.emplace r) .between q v k := by
  subst hv
  exact ⟨rfl, fun h1 _ => h.callback h1 nofun, fun _ => h.initial nofun, nofun, fun _ => h.callbackSet nofun,
    fun _ => rfl, h.hasCallback⟩

theorem CellOk.store {x : κ} (h : CellOk c p .before v (some x)) : CellOk (c.store x) p .between v (some x) :=
  ⟨h.result, fun _ _ => rfl, fun h1 _ => h.initial h1 nofun, fun h1 _ => h.resultSet h1 nofun, fun _ => nofun,
    h.hasResult, fun _ => rfl⟩

theorem CellOk.setExecutor (h : CellOk c p q v k) (e : Executor) : CellOk (c.setExecutor e) p q v k :=
  ⟨h.result, h.callback, h.initial, h.resultSet, h.callbackSet, h.hasResult, h.hasCallback⟩

/-- `state_.exchange(ResultSet)`: it submits exactly when the callback is there. -/
theorem CellOk.exchangeResult (h : CellOk c .between q v k) : CellOk c.exchangeResult.1 .after q v k ∧
    c.exchangeResult.2 = (if q = .after then some (v, k) else none) ∧
    c.exchangeResult.1.executor = c.executor := by
  have hr := h.result
  unfold SharedState.exchangeResult
  by_cases hq : q = .after
  · subst hq
    have hc := h.callback nofun nofun
    rw [if_pos (h.callbackSet nofun rfl), if_pos rfl]
    exact ⟨⟨hr, fun _ h => absurd ⟨rfl, rfl⟩ h, nofun, fun _ h => absurd rfl h, nofun, fun _ => h.hasResult nofun,
      h.hasCallback⟩, congrArg some (Prod.ext hr hc), rfl⟩
  · rw [if_neg (by rw [h.initial nofun hq]; nofun), if_neg hq]
    exact ⟨⟨hr, fun h1 _ => h.callback h1 nofun, nofun, fun _ _ => rfl, nofun, fun _ => h.hasResult nofun,
      h.hasCallback⟩, rfl, rfl⟩

/-- `state_.exchange(CallbackSet)`: it submits exactly when the result is there. -/
theorem CellOk.exchangeCallback (h : CellOk c p .between v k) : CellOk c.exchangeCallback.1 p .after v k ∧
    c.exchangeCallback.2 = (if p = .after then some (v, k) else none) ∧
    c.exchangeCallback.1.executor = c.executor := by
  have hr := h.result
  have hc := h.callback nofun nofun
  unfold SharedState.exchangeCallback
  by_cases hp : p = .after
  · subst hp
    rw [if_pos (h.resultSet rfl nofun), if_pos rfl]
    exact ⟨⟨hr, fun _ h => absurd ⟨rfl, rfl⟩ h, nofun, nofun, fun h => absurd rfl h, h.hasResult,
      fun _ => h.hasCallback nofun⟩, congrArg some (Prod.ext hr hc), rfl⟩
  · rw [if_neg (by rw [h.initial hp nofun]; nofun), if_neg hp]
    exact ⟨⟨hr, fun _ _ => hc, nofun, nofun, fun _ _ => rfl, h.hasResult, fun _ => h.hasCallback nofun⟩, rfl, rfl⟩

end cell

variable {V E : Type}

/-! ### One link -/

/-- The executor of the next future. -/
def Stage.keep (e : Executor) : Stage V E → Executor
  | .via e' => e'
  | .flatten _ => .inline
  | _ => e

/-- The executors of the links, when the first future has `e`. -/
def kept : Executor → List (Stage V E) → List Executor
  | _, [] => []
  | _, .via e' :: rest => kept e' rest
  | e, st :: rest => e :: kept (st.keep e) rest

/-- How far the callback is with `SetResult` on the next future. -/
def TaskPc.sets : TaskPc V E → Phase
  | .exchange => .between
  | .done => .after
  | _ => .before

/-- The callback has been submitted. -/
def TaskPc.started : TaskPc V E → Bool
  | .absent => false
  | _ => true

/-- The callback has been called. -/
def TaskPc.ran : TaskPc V E → Bool
  | .absent | .pending _ _ _ => false
  | _ => true

/-- Everything that is at one link. -/
structure Link (V E : Type) where
  cell : SharedState (Result V E) (Stage V E)
  /-- `SetResult` and `SetCallback` on the cell. -/
  set : Phase
  sub : Phase
  task : TaskPc V E
  inner : SharedState (Result V E) Unit
  innerSet : Phase
  submits : Nat
  calls : List Executor

section link

variable (stages : List (Stage V E)) (m : Option (Result V E)) (i : Nat)

/-- The `i`-th callback has got this inner future. -/
def Subscribes (fut : Fut V E) : Prop :=
  ∃ st r, (links stages)[i]? = some st ∧ value stages m i = some r ∧ st.run r = .subscribe fut

/-- The executors that the function of the `i`-th link is to be called on. -/
def called : List Executor :=
  match (links stages)[i]?, value stages m i with
  | some st, some r => if st.calls r then (kept .inline stages)[i]?.toList else []
  | _, _ => []

/-- What the place of a callback says. -/
def TaskOk (inner : SharedState (Result V E) Unit) (innerSet : Phase) : TaskPc V E → Prop
  | .absent => inner = .new ∧ innerSet = .before
  | .pending e r k => (inner = .new ∧ innerSet = .before) ∧ r = value stages m i ∧ k = (links stages)[i]? ∧
      (kept .inline stages)[i]? = some e
  | .subscribe fut => Subscribes stages m i fut ∧ CellOk inner innerSet .before fut.result (some ())
  | .exchangeInner fut => Subscribes stages m i fut ∧ CellOk inner innerSet .between fut.result (some ())
  | .waiting fut => Subscribes stages m i fut ∧ CellOk inner innerSet .after fut.result (some ()) ∧ innerSet ≠ .after
  | .innerPending e r => ∃ fut, Subscribes stages m i fut ∧ e = fut.executor ∧ r = fut.result ∧ r.isSome = true
  | .thrown => ∃ fut e, Subscribes stages m i fut ∧ fut.result = some (.error e)
  | .set r => value stages m (i + 1) = some r
  | .exchange | .done => True

structure LinkOk (l : Link V E) : Prop where
  cell : CellOk l.cell l.set l.sub (value stages m i) (links stages)[i]?
  started : l.task.started = true ↔ l.set = .after ∧ l.sub = .after
  task : TaskOk stages m i l.inner l.innerSet l.task
  submits : l.submits = l.task.started.toNat
  calls : l.calls = if l.task.ran then called stages m i else []

end link

section steps

variable {stages : List (Stage V E)} {m : Option (Result V E)} {i : Nat} {l : Link V E}

/-- `SubmitCallbackIntoExecutor`. -/
def Link.submit (l : Link V E) : Option (Option (Result V E) × Option (Stage V E)) → Link V E
  | none => l
  | some (r, k) => { l with task := .pending l.cell.executor r k, submits := l.submits + 1 }

theorem LinkOk.absent (h : LinkOk stages m i l) (hn : ¬ (l.set = .after ∧ l.sub = .after)) : l.task = .absent := by
  have hs := h.started.not.2 hn
  cases ht : l.task <;> rw [ht] at hs <;> first | rfl | exact absurd rfl hs

theorem LinkOk.emplace (h : LinkOk stages m i l) (hp : l.set = .before) {r : Result V E}
    (hv : value stages m i = some r) : LinkOk stages m i { l with cell := l.cell.emplace r, set := .between } := by
  have hc := h.cell
  have hst := h.started
  rw [hp] at hst hc
  exact ⟨hc.emplace hv, ⟨fun hs => absurd (hst.1 hs).1 nofun, nofun⟩, h.task, h.submits, h.calls⟩

theorem LinkOk.store (h : LinkOk stages m i l) (hq : l.sub = .before) {st : Stage V E}
    (hk : (links stages)[i]? = some st) : LinkOk stages m i { l with cell := l.cell.store st, sub := .between } := by
  have hc := h.cell
  have hst := h.started
  rw [hq] at hst
  rw [hq, hk] at hc
  refine ⟨?_, ⟨fun hs => absurd (hst.1 hs).2 nofun, nofun⟩, h.task, h.submits, h.calls⟩
  rw [hk]
  exact hc.store

theorem LinkOk.setExecutor (h : LinkOk stages m i l) (e : Executor) :
    LinkOk stages m i { l with cell := l.cell.setExecutor e } :=
  ⟨h.cell.setExecutor e, h.started, h.task, h.submits, h.calls⟩

/-- A cell both of whose words are exchanged has its callback submitted. -/
theorem LinkOk.submit (h : LinkOk stages m i l) {c : SharedState (Result V E) (Stage V E)} {p q : Phase}
    (hc : CellOk c p q (value stages m i) (links stages)[i]?) (hn : ¬ (l.set = .after ∧ l.sub = .after))
    (he : p = .after ∧ q = .after → (kept .inline stages)[i]? = some c.executor) :
    LinkOk stages m i (({ l with cell := c, set := p, sub := q } : Link V E).submit
      (if p = .after ∧ q = .after then some (value stages m i, (links stages)[i]?) else none)) := by
  have ha := h.absent hn
  have htask := h.task
  have hsub := h.submits
  have hcalls := h.calls
  rw [ha] at htask hsub hcalls
  by_cases hb : p = .after ∧ q = .after
  · rw [if_pos hb]
    exact ⟨hc, ⟨fun _ => hb, fun _ => rfl⟩, ⟨htask, rfl, rfl, he hb⟩, congrArg (· + 1) hsub, hcalls⟩
  · rw [if_neg hb]
    refine ⟨hc, ?_, ?_, ?_, ?_⟩
    · change l.task.started = true ↔ _
      rw [ha]
      exact ⟨(nomatch ·), fun h => absurd h hb⟩
    · change TaskOk _ _ _ _ _ l.task
      rw [ha]
      exact htask
    · change l.submits = l.task.started.toNat
      rw [ha]
      exact hsub
    · change l.calls = if l.task.ran then _ else _
      rw [ha]
      exact hcalls

theorem LinkOk.exchangeResult (h : LinkOk stages m i l) (hp : l.set = .between)
    (he : l.sub = .after → (kept .inline stages)[i]? = some l.cell.executor) :
    LinkOk stages m i (({ l with cell := l.cell.exchangeResult.1, set := .after } : Link V E).submit
      l.cell.exchangeResult.2) := by
  have hc := h.cell
  rw [hp] at hc
  obtain ⟨h1, h2, h3⟩ := hc.exchangeResult
  have hsub := h.submit h1 (by rw [hp]; nofun) fun hb => by rw [h3]; exact he hb.2
  rw [h2]
  simpa only [true_and] using hsub

theorem LinkOk.exchangeCallback (h : LinkOk stages m i l) (hq : l.sub = .between)
    (he : (kept .inline stages)[i]? = some l.cell.executor) :
    LinkOk stages m i (({ l with cell := l.cell.exchangeCallback.1, sub := .after } : Link V E).submit
      l.cell.exchangeCallback.2) := by
  have hc := h.cell
  rw [hq] at hc
  obtain ⟨h1, h2, h3⟩ := hc.exchangeCallback
  have hsub := h.submit h1 (by rw [hq]; nofun) fun _ => by rw [h3]; exact he
  rw [h2]
  simpa only [and_true] using hsub

/-- The callback goes on, and the cell stays. -/
theorem LinkOk.move (h : LinkOk stages m i l) {t : TaskPc V E} {inner : SharedState (Result V E) Unit}
    {innerSet : Phase} (hs : l.task.started = true) (ht : t.started = true) (hok : TaskOk stages m i inner innerSet t)
    (hr : t.ran = l.task.ran) : LinkOk stages m i { l with task := t, inner := inner, innerSet := innerSet } := by
  refine ⟨h.cell, ⟨fun _ => h.started.1 hs, fun _ => ht⟩, hok, ?_, ?_⟩
  · change l.submits = t.started.toNat
    rw [h.submits, hs, ht]
  · change l.calls = if t.ran then _ else _
    rw [h.calls, hr]

end steps

/-! ### The chain -/

/-- `SetResult` on cell `i` is the promise's, or the callback's before it. -/
def State.producer (s : State V E) : Nat → Phase
  | 0 => s.promise
  | i + 1 => (s.tasks i).sets

def PipePc.phase : PipePc V E → Phase
  | .next | .store _ => .before
  | .exchange _ => .between
  | .inherit _ => .after

def State.subscriber (s : State V E) (i : Nat) : Phase :=
  if i < s.cur then .after else if i = s.cur then s.pipe.phase else .before

def State.link (s : State V E) (i : Nat) : Link V E :=
  ⟨s.cells i, s.producer i, s.subscriber i, s.tasks i, s.inners i, s.innerSet i, s.submits i, s.calls i⟩

/-- The stage that is being applied. -/
def PipePc.current : PipePc V E → List (Stage V E)
  | .next => []
  | .store st | .exchange st | .inherit st => [st]

/-- How far the chain is. -/
structure ChainOk (stages : List (Stage V E)) (s : State V E) : Prop where
  links : (links stages).drop s.cur = links (s.pipe.current ++ s.rest)
  current : ∀ st ∈ s.pipe.current, st.isVia = false
  flatten : ∀ st, s.pipe = .inherit st → st.isFlatten = false
  kept : (kept .inline stages).drop s.cur = kept (s.cells s.cur).executor (s.pipe.current ++ s.rest)
  used : ∀ i, s.subscriber i = .after → (Pipeline.kept .inline stages)[i]? = some (s.cells i).executor
  fresh : ∀ i, s.cur < i → (s.cells i).executor = .inline

structure Inv (stages : List (Stage V E)) (m : Option (Result V E)) (s : State V E) : Prop where
  chain : ChainOk stages s
  link : ∀ i, LinkOk stages m i (s.link i)

section steps

variable {stages : List (Stage V E)} {m : Option (Result V E)} {s s' : State V E} {i j : Nat}

theorem subscriber_congr (hc : s'.cur = s.cur) (hp : s'.pipe = s.pipe) : s'.subscriber = s.subscriber := by
  funext i
  unfold State.subscriber
  rw [hc, hp]

/-- A step of somebody else leaves the chain alone. -/
theorem ChainOk.congr (h : ChainOk stages s) (hc : s'.cur = s.cur) (hr : s'.rest = s.rest) (hp : s'.pipe = s.pipe)
    (he : ∀ i, (s'.cells i).executor = (s.cells i).executor) : ChainOk stages s' := by
  have hsub := subscriber_congr hc hp
  refine ⟨?_, ?_, ?_, ?_, fun i hi => ?_, fun i hi => ?_⟩
  · rw [hc, hr, hp]
    exact h.links
  · rw [hp]
    exact h.current
  · rw [hp]
    exact h.flatten
  · rw [hc, hr, hp, he]
    exact h.kept
  · rw [he]
    exact h.used i (hsub ▸ hi)
  · rw [he]
    exact h.fresh i (hc ▸ hi)

theorem producer_congr (hp : s'.promise = s.promise) (ht : ∀ j, (s'.tasks j).sets = (s.tasks j).sets) :
    s'.producer = s.producer := by
  funext j
  cases j with
  | zero => exact hp
  | succ j => exact ht j

/-! What a step writes at the links. -/

theorem link_ext {l l' : Link V E} (hc : l'.cell = l.cell) (hp : l'.set = l.set) (hs : l'.sub = l.sub)
    (ht : l'.task = l.task) (hi : l'.inner = l.inner) (his : l'.innerSet = l.innerSet)
    (hsub : l'.submits = l.submits) (hcalls : l'.calls = l.calls) : l' = l := by
  cases l
  cases l'
  simp only at hc hp hs ht hi his hsub hcalls
  rw [hc, hp, hs, ht, hi, his, hsub, hcalls]

theorem link_setCell (c : SharedState (Result V E) (Stage V E)) :
    (s.setCell i c).link = update s.link i { s.link i with cell := c } := by
  funext j
  rcases eq_or_ne j i with rfl | hj
  · rw [update_self]
    exact link_ext (update_self ..) rfl rfl rfl rfl rfl rfl rfl
  · rw [update_of_ne hj]
    exact link_ext (update_of_ne hj ..) rfl rfl rfl rfl rfl rfl rfl

theorem link_setInner (c : SharedState (Result V E) Unit) :
    (s.setInner i c).link = update s.link i { s.link i with inner := c } := by
  funext j
  rcases eq_or_ne j i with rfl | hj
  · rw [update_self]
    exact link_ext rfl rfl rfl rfl (update_self ..) rfl rfl rfl
  · rw [update_of_ne hj]
    exact link_ext rfl rfl rfl rfl (update_of_ne hj ..) rfl rfl rfl

theorem link_setInnerSet (p : Phase) :
    (s.setInnerSet i p).link = update s.link i { s.link i with innerSet := p } := by
  funext j
  rcases eq_or_ne j i with rfl | hj
  · rw [update_self]
    exact link_ext rfl rfl rfl rfl rfl (update_self ..) rfl rfl
  · rw [update_of_ne hj]
    exact link_ext rfl rfl rfl rfl rfl (update_of_ne hj ..) rfl rfl

theorem link_setPromise (p : Phase) : (s.setPromise p).link = update s.link 0 { s.link 0 with set := p } := by
  funext j
  cases j with
  | zero => rw [update_self]; rfl
  | succ j => rw [update_of_ne (Nat.succ_ne_zero j)]; rfl

theorem link_setTask (t : TaskPc V E) : (s.setTask i t).link =
    update (update s.link i { s.link i with task := t }) (i + 1) { s.link (i + 1) with set := t.sets } := by
  funext j
  rcases eq_or_ne j (i + 1) with rfl | hj
  · rw [update_self]
    refine link_ext rfl ?_ rfl (update_of_ne (Nat.succ_ne_self i) ..) rfl rfl rfl rfl
    change (update s.tasks i t i).sets = t.sets
    rw [update_self]
  · have hset : (s.setTask i t).producer j = s.producer j := by
      cases j with
      | zero => rfl
      | succ k => exact congrArg TaskPc.sets (update_of_ne (fun h => hj (congrArg (· + 1) h)) ..)
    rw [update_of_ne hj]
    rcases eq_or_ne j i with rfl | hji
    · rw [update_self]
      exact link_ext rfl hset rfl (update_self ..) rfl rfl rfl rfl
    · rw [update_of_ne hji]
      exact link_ext rfl hset rfl (update_of_ne hji ..) rfl rfl rfl rfl

/-- The callback goes on, and not with the next future. -/
theorem link_setTask_of_sets {t : TaskPc V E} (h : t.sets = (s.tasks i).sets) :
    (s.setTask i t).link = update s.link i { s.link i with task := t } := by
  rw [link_setTask, h]
  refine (congrArg (update _ (i + 1)) ?_).trans (update_eq_self (i + 1) _)
  rw [update_of_ne (Nat.succ_ne_self i)]
  rfl

theorem link_submit {o : Option (Option (Result V E) × Option (Stage V E))} (h : o = none ∨ s.tasks i = .absent) :
    (s.submit i o).link = update s.link i ((s.link i).submit o) := by
  rcases o with - | ⟨r, k⟩
  · exact (update_eq_self i s.link).symm
  · have ha := h.resolve_left nofun
    have hset : (s.submit i (some (r, k))).producer = s.producer := by
      refine producer_congr rfl fun j => ?_
      change (update s.tasks i _ j).sets = _
      rcases eq_or_ne j i with rfl | hj
      · rw [update_self, ha]
        rfl
      · rw [update_of_ne hj]
    funext j
    have hp := congrFun hset j
    rcases eq_or_ne j i with rfl | hj
    · rw [update_self]
      exact link_ext rfl hp rfl (update_self ..) rfl rfl (update_self ..) rfl
    · rw [update_of_ne hj]
      exact link_ext rfl hp rfl (update_of_ne hj ..) rfl rfl (update_of_ne hj ..) rfl

theorem link_call (e : Executor) (b : Bool) : (s.call i e b).link =
    update s.link i { s.link i with calls := if b then s.calls i ++ [e] else s.calls i } := by
  cases b with
  | false => exact (update_eq_self i s.link).symm
  | true =>
    funext j
    rcases eq_or_ne j i with rfl | hj
    · rw [update_self]
      exact link_ext rfl rfl rfl rfl rfl rfl rfl (update_self ..)
    · rw [update_of_ne hj]
      exact link_ext rfl rfl rfl rfl rfl rfl rfl (update_of_ne hj ..)

theorem link_setPipe (p : PipePc V E) : (s.setPipe p).link =
    update s.link s.cur { s.link s.cur with sub := p.phase } := by
  funext j
  rcases eq_or_ne j s.cur with rfl | hj
  · rw [update_self]
    refine link_ext rfl rfl ?_ rfl rfl rfl rfl rfl
    change (if s.cur < s.cur then _ else if s.cur = s.cur then p.phase else _) = _
    rw [if_neg (lt_irrefl _), if_pos rfl]
  · rw [update_of_ne hj]
    refine link_ext rfl rfl ?_ rfl rfl rfl rfl rfl
    change (if j < s.cur then _ else if j = s.cur then p.phase else _) = s.subscriber j
    rw [State.subscriber, if_neg hj, if_neg hj]

/-- The next future is there, with nobody subscribed. -/
theorem link_advance (h : s.pipe.phase = .after) : s.advance.link = s.link := by
  funext j
  refine link_ext rfl rfl ?_ rfl rfl rfl rfl rfl
  change (if j < s.cur + 1 then _ else if j = s.cur + 1 then Phase.before else .before) = s.subscriber j
  unfold State.subscriber
  rcases lt_trichotomy j s.cur with hj | hj | hj
  · have h1 : j < s.cur + 1 := by omega
    rw [if_pos hj, if_pos h1]
  · subst hj
    rw [if_pos (Nat.lt_succ_self _), if_neg (lt_irrefl _), if_pos rfl, h]
  · have h1 : ¬ j < s.cur + 1 := by omega
    have h2 : ¬ j < s.cur := by omega
    have h3 : ¬ j = s.cur := by omega
    rw [if_neg h1, if_neg h2, if_neg h3, ite_self]

end steps

/-! ### The chain goes on -/

section chain

variable {stages : List (Stage V E)} {m : Option (Result V E)} {s s' : State V E} {i : Nat} {st : Stage V E}

theorem kept_cons (h : st.isVia = false) (e : Executor) (rest : List (Stage V E)) :
    kept e (st :: rest) = e :: kept (st.keep e) rest := by
  cases st with
  | via e' => cases h
  | _ => rfl

theorem links_cons (h : st.isVia = false) (rest : List (Stage V E)) : links (st :: rest) = st :: links rest :=
  List.filter_cons_of_pos (by rw [h]; rfl)

theorem links_via (e : Executor) (rest : List (Stage V E)) : links (.via e :: rest) = links rest :=
  List.filter_cons_of_neg (by simp [Stage.isVia])

theorem of_drop_eq_cons {α : Type} {l l' : List α} {n : Nat} {a : α} (h : l.drop n = a :: l') :
    l[n]? = some a ∧ l.drop (n + 1) = l' := by
  constructor
  · rw [← Nat.add_zero n, ← List.getElem?_drop, h]
    rfl
  · rw [← List.tail_drop, h]
    rfl

/-- The stage that is being applied is the one of the current link, and the link has the executor of its cell. -/
theorem ChainOk.of_current (h : ChainOk stages s) (hc : s.pipe.current = [st]) : st.isVia = false ∧
    ((Pipeline.links stages)[s.cur]? = some st ∧
      (Pipeline.links stages).drop (s.cur + 1) = Pipeline.links s.rest) ∧
    (Pipeline.kept .inline stages)[s.cur]? = some (s.cells s.cur).executor ∧
    (Pipeline.kept .inline stages).drop (s.cur + 1) = Pipeline.kept (st.keep (s.cells s.cur).executor) s.rest := by
  have hl := h.links
  have hk := h.kept
  have hv := h.current st (by rw [hc]; exact List.mem_singleton_self st)
  rw [hc, List.singleton_append] at hl hk
  rw [links_cons hv] at hl
  rw [kept_cons hv] at hk
  exact ⟨hv, of_drop_eq_cons hl, of_drop_eq_cons hk⟩

/-- The next future is there, with the executor that the stage gives to it. -/
theorem ChainOk.advance (h : ChainOk stages s) (hp : s.pipe.current = [st]) (hc : s'.cur = s.cur + 1)
    (hp' : s'.pipe = .next) (hr : s'.rest = s.rest)
    (he : (s'.cells (s.cur + 1)).executor = st.keep (s.cells s.cur).executor)
    (ho : ∀ i, i ≠ s.cur + 1 → (s'.cells i).executor = (s.cells i).executor) : ChainOk stages s' := by
  obtain ⟨-, ⟨-, hl⟩, hk, hk'⟩ := h.of_current hp
  refine ⟨?_, ?_, ?_, ?_, fun i hi => ?_, fun i hi => ?_⟩
  · rw [hc, hp', hr]
    exact hl
  · rw [hp']
    nofun
  · rw [hp']
    nofun
  · rw [hc, hp', hr, he]
    exact hk'
  · have hlt : i < s.cur + 1 := by
      unfold State.subscriber at hi
      rw [hc, hp'] at hi
      by_contra hge
      rw [if_neg hge] at hi
      split at hi <;> cases hi
    rw [ho i (by omega)]
    rcases Nat.lt_succ_iff_lt_or_eq.1 hlt with hlt | rfl
    · exact h.used i (if_pos hlt)
    · exact hk
  · rw [hc] at hi
    rw [ho i (by omega)]
    exact h.fresh i (by omega)

theorem forall_link {L : Nat → Link V E} {x : Link V E} (h : ∀ j, LinkOk stages m j (L j))
    (hx : LinkOk stages m i x) (j : Nat) : LinkOk stages m j (update L i x j) := by
  rcases eq_or_ne j i with rfl | hj
  · rwa [update_self]
  · rw [update_of_ne hj]
    exact h j

/-! What submits a callback leaves the rest alone. -/

section submit

variable {o : Option (Option (Result V E) × Option (Stage V E))}

@[simp] theorem submit_cells : (s.submit i o).cells = s.cells := by cases o <;> rfl

@[simp] theorem submit_cur : (s.submit i o).cur = s.cur := by cases o <;> rfl

@[simp] theorem submit_rest : (s.submit i o).rest = s.rest := by cases o <;> rfl

@[simp] theorem submit_pipe : (s.submit i o).pipe = s.pipe := by cases o <;> rfl

@[simp] theorem submit_promise : (s.submit i o).promise = s.promise := by cases o <;> rfl

theorem submit_setPromise (p : Phase) : (s.submit i o).setPromise p = (s.setPromise p).submit i o := by
  cases o <;> rfl

theorem submit_setPipe (p : PipePc V E) : (s.submit i o).setPipe p = (s.setPipe p).submit i o := by
  cases o <;> rfl

theorem submit_setTask {j : Nat} (h : j ≠ i) (t : TaskPc V E) :
    (s.submit i o).setTask j t = (s.setTask j t).submit i o := by
  cases o with
  | none => rfl
  | some p => simp only [State.submit, State.setTask, update_comm h]

end submit

theorem exchangeResult_executor (c : SharedState (Result V E) (Stage V E)) :
    c.exchangeResult.1.executor = c.executor := by
  unfold SharedState.exchangeResult
  split <;> rfl

theorem exchangeCallback_executor (c : SharedState (Result V E) (Stage V E)) :
    c.exchangeCallback.1.executor = c.executor := by
  unfold SharedState.exchangeCallback
  split <;> rfl

theorem executor_setCell {c : SharedState (Result V E) (Stage V E)} (h : c.executor = (s.cells i).executor)
    (j : Nat) : ((s.setCell i c).cells j).executor = (s.cells j).executor := by
  change (update s.cells i c j).executor = _
  rcases eq_or_ne j i with rfl | hj
  · rw [update_self, h]
  · rw [update_of_ne hj]

theorem executor_exchangeResult (j : Nat) : ((s.exchangeResult i).cells j).executor = (s.cells j).executor := by
  rw [State.exchangeResult, submit_cells]
  exact executor_setCell (exchangeResult_executor _) j

theorem executor_exchangeCallback (j : Nat) : ((s.exchangeCallback i).cells j).executor = (s.cells j).executor := by
  rw [State.exchangeCallback, submit_cells]
  exact executor_setCell (exchangeCallback_executor _) j

end chain

/-! ### What is left to do -/

def Phase.left : Phase → Nat
  | .before => 2
  | .between => 1
  | .after => 0

def TaskPc.left : TaskPc V E → Nat
  | .absent => 8
  | .pending _ _ _ => 7
  | .subscribe _ => 6
  | .exchangeInner _ => 5
  | .waiting _ => 4
  | .innerPending _ _ => 3
  | .set _ => 2
  | .exchange => 1
  | .done | .thrown => 0

def PipePc.left : PipePc V E → Nat
  | .next => 0
  | .store _ => 3
  | .exchange _ => 2
  | .inherit _ => 1

def Link.left (l : Link V E) : Nat := l.task.left + l.innerSet.left

/-- What the callbacks, and those who complete the inner futures, have left to do. -/
def linksLeft (stages : List (Stage V E)) (L : Nat → Link V E) : Nat :=
  ∑ j ∈ Finset.range (links stages).length, (L j).left

/-- What the promise and the thread that builds the chain have left to do. -/
def State.chores (s : State V E) : Nat := s.promise.left + (4 * s.rest.length + s.pipe.left)

def State.left (stages : List (Stage V E)) (s : State V E) : Nat := s.chores + linksLeft stages s.link

section left

variable {stages : List (Stage V E)} {L : Nat → Link V E} {i : Nat} {x : Link V E}

theorem chores_submit (s : State V E) (o : Option (Option (Result V E) × Option (Stage V E))) :
    (s.submit i o).chores = s.chores := by
  cases o <;> rfl

theorem linksLeft_update_le (h : x.left ≤ (L i).left) : linksLeft stages (update L i x) ≤ linksLeft stages L := by
  refine Finset.sum_le_sum fun j _ => ?_
  rcases eq_or_ne j i with rfl | hj
  · rwa [update_self]
  · rw [update_of_ne hj]

theorem linksLeft_update_lt (hi : i < (links stages).length) (h : x.left < (L i).left) :
    linksLeft stages (update L i x) < linksLeft stages L := by
  have hsum := Threads.sum_update_add_of_mem Link.left L (Finset.mem_range.2 hi) x
  unfold linksLeft
  omega

theorem linksLeft_update_update {j : Nat} {y : Link V E} (hne : i ≠ j) (hi : i < (links stages).length)
    (hy : y.left ≤ (L j).left) (hx : x.left < (L i).left) :
    linksLeft stages (update (update L j y) i x) < linksLeft stages L := by
  have hx' : x.left < (update L j y i).left := by rwa [update_of_ne hne]
  exact (linksLeft_update_lt hi hx').trans_le (linksLeft_update_le hy)

theorem left_submit {l : Link V E} (h : l.task = .absent) (o : Option (Option (Result V E) × Option (Stage V E))) :
    (l.submit o).left ≤ l.left := by
  cases o with
  | none => exact le_rfl
  | some p =>
    change 7 + l.innerSet.left ≤ l.task.left + l.innerSet.left
    rw [h]
    change 7 + l.innerSet.left ≤ 8 + l.innerSet.left
    omega

end left

/-! ### Every step keeps the invariant, and leaves less to do -/

section invariant

variable {stages : List (Stage V E)} {m : Option (Result V E)} {s s' : State V E} {i : Nat}

theorem links_init : (init stages).link = fun _ =>
    (⟨.new, .before, .before, .absent, .new, .before, 0, []⟩ : Link V E) := by
  funext j
  refine link_ext rfl ?_ ?_ rfl rfl rfl rfl rfl
  · cases j <;> rfl
  · change (if j < 0 then Phase.after else if j = 0 then .before else .before) = _
    rw [if_neg (Nat.not_lt_zero j), ite_self]

theorem inv_init : Inv stages m (init stages) := by
  refine ⟨⟨rfl, nofun, nofun, rfl, fun i hi => ?_, fun _ _ => rfl⟩, fun j => ?_⟩
  · have h : ((init stages).link i).sub = .before := congrArg Link.sub (congrFun links_init i)
    exact absurd (h.symm.trans hi) nofun
  · rw [links_init]
    exact ⟨.new, ⟨(nomatch ·), nofun⟩, ⟨rfl, rfl⟩, rfl, rfl⟩

/-- The chain and the links after a step, and what is left. -/
theorem Inv.next {L : Nat → Link V E} (hc : ChainOk stages s') (hl : s'.link = L)
    (hL : ∀ j, LinkOk stages m j (L j)) (hlt : s'.chores + linksLeft stages L < s.left stages) :
    Inv stages m s' ∧ s'.left stages < s.left stages := by
  subst hl
  exact ⟨⟨hc, hL⟩, hlt⟩

theorem inv_promiseStep (h : Inv stages m s) (hs : s.promiseStep m = some s') :
    Inv stages m s' ∧ s'.left stages < s.left stages := by
  have h0 := h.link 0
  unfold State.promiseStep at hs
  split at hs
  · next hp =>
    obtain ⟨r, hr, rfl⟩ := Option.map_eq_some_iff.1 hs
    refine Inv.next (h.chain.congr rfl rfl rfl (executor_setCell rfl)) ?_ (forall_link h.link (h0.emplace hp hr))
      (Nat.add_lt_add_of_lt_of_le ?_ (linksLeft_update_le le_rfl))
    · rw [link_setPromise, link_setCell, update_self, update_idem]
      rfl
    · change 1 + (4 * s.rest.length + s.pipe.left) < s.promise.left + _
      rw [hp]
      exact Nat.add_lt_add_right Nat.one_lt_two _
  · next hp =>
    obtain rfl := Option.some.inj hs
    have ha : s.tasks 0 = .absent := h0.absent fun hb => absurd (hp.symm.trans hb.1) nofun
    have hok := h0.exchangeResult hp fun hq => h.chain.used 0 hq
    refine Inv.next (h.chain.congr (submit_cur ..) (submit_rest ..) (submit_pipe ..) executor_exchangeResult) ?_
      (forall_link h.link hok) (Nat.add_lt_add_of_lt_of_le ?_ (linksLeft_update_le (left_submit ha _)))
    · rw [State.exchangeResult, submit_setPromise,
        link_submit (s := (s.setCell 0 (s.cells 0).exchangeResult.1).setPromise .after) (.inr ha), link_setPromise,
        link_setCell, update_self, update_idem, update_idem, update_self]
      rfl
    · have hchores : ((s.exchangeResult 0).setPromise .after).chores + 1 = s.chores := by
        rw [State.exchangeResult, submit_setPromise, chores_submit]
        change 0 + (4 * s.rest.length + s.pipe.left) + 1 = s.promise.left + (4 * s.rest.length + s.pipe.left)
        rw [hp, Nat.zero_add]
        exact Nat.add_comm _ _
      omega
  · cases hs

theorem value_succ {st : Stage V E} {r : Result V E} (hl : (links stages)[i]? = some st)
    (hv : value stages m i = some r) : value stages m (i + 1) = (st.run r).outcome := by
  rw [value, hv, Option.bind_some, hl, Option.bind_some]

theorem Subscribes.value_succ {fut : Fut V E} (h : Subscribes stages m i fut) :
    value stages m (i + 1) = (Next.subscribe fut).outcome := by
  obtain ⟨st, r, hl, hv, hr⟩ := h
  rw [Pipeline.value_succ hl hv, hr]

/-- A cell that a task is about to set. -/
theorem sets_of_task {t : TaskPc V E} (ht : s.tasks i = t) :
    (s.link (i + 1)).set = t.sets := by
  rw [← ht]
  rfl

/-- A callback that is submitted is one of the links'. -/
theorem LinkOk.lt {l : Link V E} (h : LinkOk stages m i l) (hs : l.task.started = true) :
    i < (links stages).length := by
  have hsome := h.cell.hasCallback (by rw [(h.started.1 hs).2]; nofun)
  by_contra hge
  rw [List.getElem?_eq_none (Nat.le_of_not_lt hge)] at hsome
  cases hsome

/-- The callback is called. -/
theorem LinkOk.run {l : Link V E} (h : LinkOk stages m i l) {e : Executor} {r : Result V E} {st : Stage V E}
    (ht : l.task = .pending e (some r) (some st)) : LinkOk stages m i { l with
      task := (st.run r).pc, calls := if st.calls r then l.calls ++ [e] else l.calls } := by
  have htask := h.task
  have hcalls := h.calls
  rw [ht] at htask hcalls
  obtain ⟨⟨hin, hset⟩, hv, hl, hk⟩ := htask
  have hstarted : (st.run r).pc.started = true := by cases st.run r <;> rfl
  have hran : (st.run r).pc.ran = true := by cases st.run r <;> rfl
  refine ⟨h.cell, ⟨fun _ => h.started.1 (by rw [ht]; rfl), fun _ => hstarted⟩, ?_, ?_, ?_⟩
  · change TaskOk _ _ _ l.inner l.innerSet (st.run r).pc
    cases hn : st.run r with
    | set r' => exact (value_succ hl.symm hv.symm).trans (by rw [hn]; rfl)
    | subscribe fut =>
      rw [hin, hset]
      exact ⟨⟨st, r, hl.symm, hv.symm, hn⟩, .new⟩
  · change l.submits = (st.run r).pc.started.toNat
    rw [h.submits, ht, hstarted]
    rfl
  · change (if st.calls r then l.calls ++ [e] else l.calls) = if (st.run r).pc.ran then called stages m i else []
    rw [hran, if_pos rfl, hcalls]
    change (if st.calls r = true then [e] else []) = called stages m i
    rw [called, ← hl, ← hv, hk]
    rfl

/-- The inner future's callback, when an exchange has come second. -/
theorem taskOk_submitInner {inner : SharedState (Result V E) Unit} {p : Phase} {fut : Fut V E} {t : TaskPc V E}
    (hsub : Subscribes stages m i fut) (hc : CellOk inner p .after fut.result (some ())) (hp : p = .after)
    {o : Option (Option (Result V E) × Option Unit)} (ho : o = some (fut.result, some ())) :
    TaskOk stages m i inner p (TaskPc.submitInner fut t o) := by
  subst ho
  exact ⟨fut, hsub, rfl, rfl, hc.hasResult (by rw [hp]; nofun)⟩

/-- `result_opt_.emplace` of the next future. -/
theorem inv_set (h : Inv stages m s) {r : Result V E} (hp : s.tasks i = .set r) :
    Inv stages m ((s.setCell (i + 1) ((s.cells (i + 1)).emplace r)).setTask i .exchange) ∧
      ((s.setCell (i + 1) ((s.cells (i + 1)).emplace r)).setTask i .exchange).left stages < s.left stages := by
  have hi := h.link i
  have htask := hi.task
  change TaskOk stages m i (s.inners i) (s.innerSet i) (s.tasks i) at htask
  rw [hp] at htask
  have hset : (s.link (i + 1)).set = .before := sets_of_task hp
  have hne : i + 1 ≠ i := Nat.succ_ne_self i
  have hstarted : (s.link i).task.started = true := by change (s.tasks i).started = true; rw [hp]; rfl
  have hok : LinkOk stages m i { s.link i with task := .exchange } :=
    hi.move hstarted rfl trivial (by change _ = (s.tasks i).ran; rw [hp]; rfl)
  refine Inv.next (h.chain.congr rfl rfl rfl (executor_setCell rfl)) ?_
    (forall_link (forall_link h.link ((h.link (i + 1)).emplace hset htask)) hok) ?_
  · rw [link_setTask, link_setCell, update_of_ne hne.symm, update_self, update_comm hne.symm, update_idem]
    rfl
  · have hlt : Link.left { s.link i with task := .exchange } < (s.link i).left := by
      change 1 + (s.innerSet i).left < (s.tasks i).left + (s.innerSet i).left
      rw [hp]
      exact Nat.add_lt_add_right Nat.one_lt_two _
    change s.chores + _ < s.chores + _
    refine Nat.add_lt_add_left (linksLeft_update_update hne.symm (hi.lt hstarted) ?_ hlt) _
    exact le_rfl

/-- `state_.exchange(ResultSet)` of the next future. -/
theorem inv_exchange (h : Inv stages m s) (hp : s.tasks i = .exchange) :
    Inv stages m ((s.exchangeResult (i + 1)).setTask i .done) ∧
      ((s.exchangeResult (i + 1)).setTask i .done).left stages < s.left stages := by
  have hi := h.link i
  have hset : (s.link (i + 1)).set = .between := sets_of_task hp
  have hne : i + 1 ≠ i := Nat.succ_ne_self i
  have ha : s.tasks (i + 1) = .absent :=
    (h.link (i + 1)).absent fun hb => absurd (hset.symm.trans hb.1) nofun
  have hnext := (h.link (i + 1)).exchangeResult hset fun hq => h.chain.used (i + 1) hq
  have hstarted : (s.link i).task.started = true := by change (s.tasks i).started = true; rw [hp]; rfl
  have hok : LinkOk stages m i { s.link i with task := .done } :=
    hi.move hstarted rfl trivial (by change _ = (s.tasks i).ran; rw [hp]; rfl)
  refine Inv.next (h.chain.congr (submit_cur ..) (submit_rest ..) (submit_pipe ..) executor_exchangeResult) ?_
    (forall_link (forall_link h.link hnext) hok) ?_
  · rw [State.exchangeResult, submit_setTask hne.symm,
      link_submit (.inr ((update_of_ne hne ..).trans ha)), link_setTask, link_setCell, update_of_ne hne.symm,
      update_self, update_self, update_idem, update_comm hne.symm, update_idem]
    rfl
  · have hlt : Link.left { s.link i with task := .done } < (s.link i).left := by
      change 0 + (s.innerSet i).left < (s.tasks i).left + (s.innerSet i).left
      rw [hp]
      exact Nat.add_lt_add_right Nat.zero_lt_one _
    have hchores : ((s.exchangeResult (i + 1)).setTask i .done).chores = s.chores := by
      rw [State.exchangeResult, submit_setTask hne.symm, chores_submit]
      rfl
    rw [hchores]
    change s.chores + _ < s.chores + _
    refine Nat.add_lt_add_left (linksLeft_update_update hne.symm (hi.lt hstarted) ?_ hlt) _
    exact left_submit (l := { s.link (i + 1) with cell := (s.cells (i + 1)).exchangeResult.1, set := .after }) ha _

theorem inv_taskStep (h : Inv stages m s) (hs : s.taskStep i = some s') :
    Inv stages m s' ∧ s'.left stages < s.left stages := by
  have hi := h.link i
  have htask := hi.task
  change TaskOk stages m i (s.inners i) (s.innerSet i) (s.tasks i) at htask
  -- a callback that goes on, and leaves the cells alone
  have hmove : ∀ (inner : SharedState (Result V E) Unit) {s'' : State V E} {t : TaskPc V E},
      s''.cells = s.cells → s''.cur = s.cur → s''.rest = s.rest → s''.pipe = s.pipe → s''.promise = s.promise →
      s''.link = update s.link i { s.link i with task := t, inner := inner } →
      (s.tasks i).started = true → t.started = true → TaskOk stages m i inner (s.innerSet i) t →
      t.ran = (s.tasks i).ran → t.left < (s.tasks i).left → Inv stages m s'' ∧ s''.left stages < s.left stages := by
    intro inner s'' t hc hcur hrest hpipe hprom hl hst hst' hok hran hleft
    refine Inv.next (h.chain.congr hcur hrest hpipe (fun j => by rw [hc])) hl
      (forall_link h.link (hi.move hst hst' hok hran)) ?_
    have hchores : s''.chores = s.chores := by rw [State.chores, hprom, hrest, hpipe]; rfl
    rw [hchores]
    exact Nat.add_lt_add_left (linksLeft_update_lt (hi.lt hst) (Nat.add_lt_add_right hleft _)) _
  unfold State.taskStep at hs
  split at hs
  · next e r st hp =>
    obtain rfl := Option.some.inj hs
    have hsets : (st.run r).pc.sets = (s.tasks i).sets := by
      rw [hp]
      cases st.run r <;> rfl
    have hleft : (st.run r).pc.left < (s.tasks i).left := by
      rw [hp]
      cases st.run r
      · change 2 < 7
        omega
      · change 6 < 7
        omega
    have hcall : ∀ b, (s.call i e b).tasks i = s.tasks i ∧ (s.call i e b).cells = s.cells ∧
        (s.call i e b).cur = s.cur ∧ (s.call i e b).rest = s.rest ∧ (s.call i e b).pipe = s.pipe ∧
        (s.call i e b).promise = s.promise := by
      intro b
      cases b <;> exact ⟨rfl, rfl, rfl, rfl, rfl, rfl⟩
    obtain ⟨h1, h2, h3, h4, h5, h6⟩ := hcall (st.calls r)
    refine Inv.next (h.chain.congr h3 h4 h5 (fun j => congrArg (fun c => (c j).executor) h2)) ?_
      (forall_link h.link (hi.run hp)) ?_
    · rw [link_setTask_of_sets (by rw [h1]; exact hsets), link_call, update_self, update_idem]
      rfl
    · have hchores : (s.call i e (st.calls r)).chores = s.chores := by rw [State.chores, h4, h5, h6]; rfl
      refine Nat.add_lt_add_of_le_of_lt (le_of_eq hchores) (linksLeft_update_lt (hi.lt ?_) ?_)
      · change (s.tasks i).started = true
        rw [hp]
        rfl
      · exact Nat.add_lt_add_right hleft _
  · next fut hp =>
    obtain rfl := Option.some.inj hs
    rw [hp] at htask
    have hpc : (TaskPc.exchangeInner fut).sets = (s.tasks i).sets := by rw [hp]; rfl
    refine hmove ((s.inners i).store ()) rfl rfl rfl rfl rfl (t := .exchangeInner fut) ?_ (by rw [hp]; rfl) rfl ?_
      (by rw [hp]; rfl) (by rw [hp]; exact Nat.lt_succ_self _)
    · rw [link_setTask_of_sets (s := s.setInner i _) hpc, link_setInner, update_self, update_idem]
    · exact ⟨htask.1, htask.2.store⟩
  · next fut hp =>
    obtain rfl := Option.some.inj hs
    rw [hp] at htask
    obtain ⟨hsub, hc⟩ := htask
    obtain ⟨hc', ho, -⟩ := hc.exchangeCallback
    have hpc : (TaskPc.submitInner fut (.waiting fut) (s.inners i).exchangeCallback.2).sets = (s.tasks i).sets ∧
        (TaskPc.submitInner fut (.waiting fut) (s.inners i).exchangeCallback.2).started = true ∧
        (TaskPc.submitInner fut (.waiting fut) (s.inners i).exchangeCallback.2).ran = (s.tasks i).ran ∧
        (TaskPc.submitInner fut (.waiting fut) (s.inners i).exchangeCallback.2).left < (s.tasks i).left := by
      rw [hp]
      cases (s.inners i).exchangeCallback.2
      · exact ⟨rfl, rfl, rfl, Nat.lt_succ_self 4⟩
      · exact ⟨rfl, rfl, rfl, (Nat.lt_succ_self 3).trans (Nat.lt_succ_self 4)⟩
    refine hmove (s.inners i).exchangeCallback.1 rfl rfl rfl rfl rfl ?_ (by rw [hp]; rfl) hpc.2.1 ?_ hpc.2.2.1 hpc.2.2.2
    · rw [link_setTask_of_sets (s := s.setInner i _) hpc.1, link_setInner, update_self, update_idem]
    · by_cases hset : s.innerSet i = .after
      · exact taskOk_submitInner hsub hc' hset (by rw [ho, if_pos hset])
      · rw [ho, if_neg hset]
        exact ⟨hsub, hc', hset⟩
  · next e v hp =>
    obtain rfl := Option.some.inj hs
    rw [hp] at htask
    obtain ⟨fut, hsub, -, hr, -⟩ := htask
    refine hmove (s.inners i) rfl rfl rfl rfl rfl (link_setTask_of_sets (by rw [hp]; rfl))
      (by rw [hp]; rfl) rfl ?_ (by rw [hp]; rfl) (by rw [hp]; exact Nat.lt_succ_self _)
    exact hsub.value_succ.trans (by rw [Next.outcome, ← hr])
  · next e err hp =>
    obtain rfl := Option.some.inj hs
    rw [hp] at htask
    obtain ⟨fut, hsub, -, hr, -⟩ := htask
    refine hmove (s.inners i) rfl rfl rfl rfl rfl (link_setTask_of_sets (by rw [hp]; rfl))
      (by rw [hp]; rfl) rfl ?_ (by rw [hp]; rfl) (by rw [hp]; exact Nat.zero_lt_succ _)
    exact ⟨fut, err, hsub, hr.symm⟩
  · next r hp =>
    obtain rfl := Option.some.inj hs
    exact inv_set h hp
  · next hp =>
    obtain rfl := Option.some.inj hs
    exact inv_exchange h hp
  · cases hs

theorem inv_innerStep (h : Inv stages m s) (hs : s.innerStep i = some s') :
    Inv stages m s' ∧ s'.left stages < s.left stages := by
  have hi := h.link i
  have htask := hi.task
  change TaskOk stages m i (s.inners i) (s.innerSet i) (s.tasks i) at htask
  -- the callback has an inner future, which `SetResult` goes on with
  have hgot : ∀ {fut}, (s.tasks i).fut = some fut → (s.link i).task.started = true ∧ Subscribes stages m i fut ∧ ∃ q,
      CellOk (s.inners i) (s.innerSet i) q fut.result (some ()) ∧ (q = .after ↔ s.tasks i = .waiting fut) := by
    intro fut hf
    change (s.tasks i).started = true ∧ _
    cases hp : s.tasks i <;> rw [hp] at hf htask <;> cases hf
    · exact ⟨rfl, htask.1, .before, htask.2, nofun, nofun⟩
    · exact ⟨rfl, htask.1, .between, htask.2, nofun, nofun⟩
    · exact ⟨rfl, htask.1, .after, htask.2.1, fun _ => rfl, fun _ => rfl⟩
  unfold State.innerStep at hs
  split at hs
  · next fut hf hset =>
    obtain ⟨r, hr, rfl⟩ := Option.map_eq_some_iff.1 hs
    obtain ⟨hst, hsub, -⟩ := hgot hf
    have hlt : Link.left { s.link i with inner := (s.inners i).emplace r, innerSet := .between } < (s.link i).left := by
      change (s.tasks i).left + 1 < (s.tasks i).left + (s.innerSet i).left
      rw [hset]
      exact Nat.add_lt_add_left Nat.one_lt_two _
    refine Inv.next (h.chain.congr rfl rfl rfl (fun _ => rfl)) ?_
      (forall_link (i := i) (x := { s.link i with inner := (s.inners i).emplace r, innerSet := .between }) h.link
        ⟨hi.cell, hi.started, ?_, hi.submits, hi.calls⟩)
      (Nat.add_lt_add_left (linksLeft_update_lt (hi.lt hst) hlt) _)
    · rw [link_setInnerSet, link_setInner, update_self, update_idem]
    change TaskOk stages m i ((s.inners i).emplace r) .between (s.tasks i)
    cases hp : s.tasks i <;> rw [hp] at hf htask <;> cases hf
    · rw [hset] at htask
      exact ⟨hsub, htask.2.emplace hr⟩
    · rw [hset] at htask
      exact ⟨hsub, htask.2.emplace hr⟩
    · rw [hset] at htask
      exact ⟨hsub, htask.2.1.emplace hr, nofun⟩
  · next fut hf hset =>
    obtain rfl := Option.some.inj hs
    obtain ⟨hst, hsub, q, hc, hq⟩ := hgot hf
    rw [hset] at hc
    obtain ⟨hc', ho, -⟩ := hc.exchangeResult
    have hpc : (TaskPc.submitInner fut (s.tasks i) (s.inners i).exchangeResult.2).sets = (s.tasks i).sets ∧
        (TaskPc.submitInner fut (s.tasks i) (s.inners i).exchangeResult.2).started = true ∧
        (TaskPc.submitInner fut (s.tasks i) (s.inners i).exchangeResult.2).ran = (s.tasks i).ran ∧
        (TaskPc.submitInner fut (s.tasks i) (s.inners i).exchangeResult.2).left ≤ (s.tasks i).left := by
      cases hp : s.tasks i <;> rw [hp] at hf <;> cases hf
      all_goals
        cases (s.inners i).exchangeResult.2
        · exact ⟨rfl, rfl, rfl, le_rfl⟩
        · refine ⟨rfl, rfl, rfl, ?_⟩
          simp [TaskPc.submitInner, TaskPc.left]
    have hlt : Link.left { s.link i with
        task := TaskPc.submitInner fut (s.tasks i) (s.inners i).exchangeResult.2
        inner := (s.inners i).exchangeResult.1, innerSet := .after } < (s.link i).left := by
      refine Nat.add_lt_add_of_le_of_lt hpc.2.2.2 ?_
      change 0 < (s.innerSet i).left
      rw [hset]
      exact Nat.one_pos
    refine Inv.next (h.chain.congr rfl rfl rfl (fun _ => rfl)) ?_
      (forall_link h.link (hi.move hst hpc.2.1 ?_ hpc.2.2.1))
      (Nat.add_lt_add_left (linksLeft_update_lt (hi.lt hst) hlt) _)
    · rw [link_setTask_of_sets (s := (s.setInner i _).setInnerSet i _) hpc.1, link_setInnerSet, link_setInner,
        update_self, update_idem, update_self, update_idem]
    by_cases hqa : q = .after
    · subst hqa
      exact taskOk_submitInner hsub hc' rfl (by rw [ho, if_pos rfl])
    · rw [ho, if_neg hqa]
      change TaskOk _ _ _ _ _ (s.tasks i)
      cases hp : s.tasks i <;> rw [hp] at hf htask <;> cases hf
      · rw [hset] at htask
        exact ⟨hsub, htask.2.exchangeResult.1⟩
      · rw [hset] at htask
        exact ⟨hsub, htask.2.exchangeResult.1⟩
      · exact absurd (hq.2 hp) hqa
  · cases hs

theorem subscriber_cur (s : State V E) : s.subscriber s.cur = s.pipe.phase := by
  rw [State.subscriber, if_neg (lt_irrefl _), if_pos rfl]

/-- The chain while a stage is applied. -/
theorem ChainOk.stay {st : Stage V E} {p : PipePc V E} (h : ChainOk stages s) (hc : s.pipe.current = [st])
    (hcur : s'.cur = s.cur) (hrest : s'.rest = s.rest) (hp : s'.pipe = p) (hpc : p.current = [st])
    (hf : ∀ st', p = .inherit st' → st'.isFlatten = false)
    (he : ∀ i, (s'.cells i).executor = (s.cells i).executor) : ChainOk stages s' := by
  obtain ⟨-, -, hk, -⟩ := h.of_current hc
  refine ⟨?_, ?_, ?_, ?_, fun i hi => ?_, fun i hi => ?_⟩
  · rw [hcur, hrest, hp, hpc, ← hc]
    exact h.links
  · rw [hp, hpc, ← hc]
    exact h.current
  · rw [hp]
    exact hf
  · rw [hcur, hrest, hp, hpc, he, ← hc]
    exact h.kept
  · rw [he]
    rcases lt_trichotomy i s.cur with hlt | rfl | hgt
    · exact h.used i (if_pos hlt)
    · exact hk
    · unfold State.subscriber at hi
      rw [hcur, if_neg (by omega), if_neg (by omega)] at hi
      cases hi
  · rw [he]
    exact h.fresh i (hcur ▸ hi)

/-- `Via`. -/
theorem inv_via (h : Inv stages m s) (hp : s.pipe = .next) {e : Executor} {rest : List (Stage V E)}
    (hr : s.rest = .via e :: rest) {s' : State V E}
    (hs : s' = { s.setCell s.cur ((s.cells s.cur).setExecutor e) with rest := rest }) :
    Inv stages m s' ∧ s'.left stages < s.left stages := by
  subst hs
  have hsub : s.subscriber s.cur = .before := by rw [subscriber_cur, hp]; rfl
  refine Inv.next ⟨?_, h.chain.current, h.chain.flatten, ?_, fun j hj => ?_, fun j hj => ?_⟩
    (link_setCell (s := s) ((s.cells s.cur).setExecutor e))
    (forall_link h.link ((h.link s.cur).setExecutor e))
    (Nat.add_lt_add_of_lt_of_le ?_ (linksLeft_update_le le_rfl))
  · change (links stages).drop s.cur = links (s.pipe.current ++ rest)
    rw [h.chain.links, hp, hr]
    exact links_via e rest
  · change (kept .inline stages).drop s.cur =
      kept (update s.cells s.cur ((s.cells s.cur).setExecutor e) s.cur).executor (s.pipe.current ++ rest)
    rw [h.chain.kept, update_self, hp, hr]
    rfl
  · have hne : j ≠ s.cur := by
      rintro rfl
      exact absurd (hsub.symm.trans hj) nofun
    exact (h.chain.used j hj).trans (by rw [← update_of_ne hne _ s.cells]; rfl)
  · have hne : j ≠ s.cur := Nat.ne_of_gt hj
    exact (congrArg SharedState.executor (update_of_ne hne _ s.cells)).trans (h.chain.fresh j hj)
  · change s.promise.left + (4 * rest.length + s.pipe.left) < s.promise.left + (4 * s.rest.length + s.pipe.left)
    rw [hr, List.length_cons]
    omega

/-- `Contract` for the next stage. -/
theorem inv_contract (h : Inv stages m s) (hp : s.pipe = .next) {st : Stage V E} {rest : List (Stage V E)}
    (hr : s.rest = st :: rest) (hvia : st.isVia = false) {s' : State V E}
    (hs : s' = { s with rest := rest, pipe := .store st }) : Inv stages m s' ∧ s'.left stages < s.left stages := by
  subst hs
  have hl := h.chain.links
  have hk := h.chain.kept
  rw [hp, hr] at hl hk
  have hphase : ({ s with rest := rest, pipe := .store st } : State V E).subscriber = s.subscriber := by
    funext j
    unfold State.subscriber
    rw [hp]
    rfl
  refine Inv.next ⟨hl, fun st' h' => ?_, nofun, hk, fun j hj => h.chain.used j (hphase ▸ hj), h.chain.fresh⟩ ?_
    h.link ?_
  · rwa [List.mem_singleton.1 h']
  · funext j
    exact link_ext rfl rfl (congrFun hphase j) rfl rfl rfl rfl rfl
  · refine Nat.add_lt_add_right ?_ _
    change s.promise.left + (4 * rest.length + 3) < s.promise.left + (4 * s.rest.length + s.pipe.left)
    rw [hr, List.length_cons]
    omega

/-- `callback_opt_ = callback` in `Subscribe`. -/
theorem inv_store (h : Inv stages m s) {st : Stage V E} (hp : s.pipe = .store st) {s' : State V E}
    (hs : s' = (s.setCell s.cur ((s.cells s.cur).store st)).setPipe (.exchange st)) :
    Inv stages m s' ∧ s'.left stages < s.left stages := by
  subst hs
  have hcur := h.link s.cur
  have hc : s.pipe.current = [st] := by rw [hp]; rfl
  have hsub : s.subscriber s.cur = .before := by rw [subscriber_cur, hp]; rfl
  obtain ⟨-, ⟨hl, -⟩, -⟩ := h.chain.of_current hc
  have hlink : ((s.setCell s.cur ((s.cells s.cur).store st)).setPipe (.exchange st)).link =
      update s.link s.cur { s.link s.cur with cell := (s.cells s.cur).store st, sub := .between } := by
    refine (link_setPipe (s := s.setCell s.cur _) _).trans ?_
    rw [link_setCell]
    change update (update s.link s.cur _) s.cur { update s.link s.cur _ s.cur with sub := _ } = _
    rw [update_self, update_idem]
    rfl
  refine Inv.next (h.chain.stay hc rfl rfl rfl rfl nofun (executor_setCell rfl)) hlink
    (forall_link h.link (hcur.store hsub hl)) (Nat.add_lt_add_of_lt_of_le ?_ (linksLeft_update_le le_rfl))
  change s.promise.left + (4 * s.rest.length + 2) < s.promise.left + (4 * s.rest.length + s.pipe.left)
  rw [hp]
  exact Nat.add_lt_add_left (Nat.add_lt_add_left (Nat.lt_succ_self 2) _) _

/-- `state_.exchange(CallbackSet)` in `Subscribe`. -/
theorem inv_subscribe (h : Inv stages m s) {st : Stage V E} (hp : s.pipe = .exchange st) {s' : State V E}
    (hs : s' = if st.isFlatten then (s.exchangeCallback s.cur).advance
      else (s.exchangeCallback s.cur).setPipe (.inherit st)) :
    Inv stages m s' ∧ s'.left stages < s.left stages := by
  have hcur := h.link s.cur
  have hc : s.pipe.current = [st] := by rw [hp]; rfl
  obtain ⟨-, -, hk, -⟩ := h.chain.of_current hc
  have hsub : s.subscriber s.cur = .between := by rw [subscriber_cur, hp]; rfl
  have ha : s.tasks s.cur = .absent := hcur.absent fun hb => absurd (hsub.symm.trans hb.2) nofun
  -- the links after the exchange
  have hlink : ((s.exchangeCallback s.cur).setPipe (.inherit st)).link = update s.link s.cur
      (({ s.link s.cur with cell := (s.cells s.cur).exchangeCallback.1, sub := .after } : Link V E).submit
        (s.cells s.cur).exchangeCallback.2) := by
    rw [State.exchangeCallback, submit_setPipe,
      link_submit (s := (s.setCell s.cur (s.cells s.cur).exchangeCallback.1).setPipe (.inherit st)) (.inr ha),
      link_setPipe, link_setCell]
    change update (update (update s.link s.cur _) s.cur { update s.link s.cur _ s.cur with sub := _ }) s.cur
      (Link.submit (update (update s.link s.cur _) s.cur { update s.link s.cur _ s.cur with sub := _ } s.cur) _) = _
    rw [update_self, update_idem, update_idem, update_self]
    rfl
  have hok := forall_link h.link (hcur.exchangeCallback hsub hk)
  have hleft : linksLeft stages (update s.link s.cur
      (({ s.link s.cur with cell := (s.cells s.cur).exchangeCallback.1, sub := .after } : Link V E).submit
        (s.cells s.cur).exchangeCallback.2)) ≤ linksLeft stages s.link := by
    refine linksLeft_update_le ?_
    exact left_submit (l := { s.link s.cur with cell := (s.cells s.cur).exchangeCallback.1, sub := .after }) ha _
  have hchores : s.chores = s.promise.left + (4 * s.rest.length + 2) := by rw [State.chores, hp]; rfl
  subst hs
  split
  · next hflat =>
    have hadv : (s.exchangeCallback s.cur).advance = ((s.exchangeCallback s.cur).setPipe (.inherit st)).advance := rfl
    refine Inv.next (h.chain.advance hc (congrArg (· + 1) (submit_cur ..)) rfl (submit_rest ..) ?_ ?_) ?_ hok
      (Nat.add_lt_add_of_lt_of_le ?_ hleft)
    · refine (executor_exchangeCallback _).trans ((h.chain.fresh _ (Nat.lt_succ_self _)).trans ?_)
      cases st with
      | flatten f => rfl
      | _ => cases hflat
    · exact fun j _ => executor_exchangeCallback j
    · rw [hadv, link_advance rfl, hlink]
      rfl
    · have hnew : (s.exchangeCallback s.cur).advance.chores = s.promise.left + (4 * s.rest.length + 0) := by
        unfold State.exchangeCallback
        cases (s.cells s.cur).exchangeCallback.2 <;> rfl
      omega
  · next hflat =>
    refine Inv.next (h.chain.stay hc (submit_cur ..) (submit_rest ..) rfl rfl ?_ executor_exchangeCallback) hlink hok
      (Nat.add_lt_add_of_lt_of_le ?_ hleft)
    · rintro _ ⟨⟩
      simpa using hflat
    · have hnew : ((s.exchangeCallback s.cur).setPipe (.inherit st)).chores =
          s.promise.left + (4 * s.rest.length + 1) := by
        unfold State.exchangeCallback
        cases (s.cells s.cur).exchangeCallback.2 <;> rfl
      omega

/-- `Via(input_future.GetExecutor())` on the new future. -/
theorem inv_inherit (h : Inv stages m s) {st : Stage V E} (hp : s.pipe = .inherit st) {s' : State V E}
    (hs : s' = (s.setCell (s.cur + 1) ((s.cells (s.cur + 1)).setExecutor (s.cells s.cur).executor)).advance) :
    Inv stages m s' ∧ s'.left stages < s.left stages := by
  subst hs
  have hc : s.pipe.current = [st] := by rw [hp]; rfl
  have hflat := h.chain.flatten st hp
  obtain ⟨hv, -⟩ := h.chain.of_current hc
  refine Inv.next (h.chain.advance hc rfl rfl rfl ?_ (fun j hj => ?_)) ?_
    (forall_link h.link ((h.link (s.cur + 1)).setExecutor (s.cells s.cur).executor))
    (Nat.add_lt_add_of_lt_of_le ?_ (linksLeft_update_le le_rfl))
  · change (update s.cells (s.cur + 1) _ (s.cur + 1)).executor = _
    rw [update_self]
    cases st with
    | via e => cases hv
    | flatten f => cases hflat
    | _ => rfl
  · exact congrArg SharedState.executor (update_of_ne hj _ s.cells)
  · rw [link_advance (s := s.setCell (s.cur + 1) _) (by change s.pipe.phase = _; rw [hp]; rfl), link_setCell]
    rfl
  · change s.promise.left + (4 * s.rest.length + 0) < s.promise.left + (4 * s.rest.length + s.pipe.left)
    rw [hp]
    exact Nat.add_lt_add_left (Nat.lt_succ_self _) _

theorem inv_pipeStep (h : Inv stages m s) (hs : s.pipeStep = some s') :
    Inv stages m s' ∧ s'.left stages < s.left stages := by
  unfold State.pipeStep at hs
  split at hs
  · next hp =>
    split at hs
    · cases hs
    · next e rest hr => exact inv_via h hp hr (Option.some.inj hs).symm
    · next st rest hvia hr =>
      refine inv_contract h hp hr ?_ (Option.some.inj hs).symm
      cases st with
      | via e => exact absurd rfl (hvia e)
      | _ => rfl
  · next st hp => exact inv_store h hp (Option.some.inj hs).symm
  · next st hp =>
    refine inv_subscribe h hp ?_
    split at hs
    · next hflat => rw [if_pos hflat]; exact (Option.some.inj hs).symm
    · next hflat => rw [if_neg hflat]; exact (Option.some.inj hs).symm
  · next st hp => exact inv_inherit h hp (Option.some.inj hs).symm

theorem inv_step {a : Act} (h : Inv stages m s) (hs : step m s a = some s') :
    Inv stages m s' ∧ s'.left stages < s.left stages := by
  cases a with
  | pipe => exact inv_pipeStep h hs
  | promise => exact inv_promiseStep h hs
  | task i => exact inv_taskStep h hs
  | inner i => exact inv_innerStep h hs

theorem inv_of_reach (r : Reach (system stages m) anyStep s) : Inv stages m s := by
  refine r.invariant (I := Inv stages m) ?_ (fun _ _ _ h _ hs => (inv_step h hs).1)
  rintro _ rfl
  exact inv_init

end invariant

/-! ### At the end -/

section stuck

variable {stages : List (Stage V E)} {m : Option (Result V E)} {s : State V E} {i : Nat}

/-- Every run can be brought to an end. -/
theorem exists_end (r : Reach (system stages m) anyStep s) :
    ∃ s', Reach (system stages m) anyStep s' ∧ ∀ a, step m s' a = none := by
  obtain ⟨s', r', h⟩ := r.exists_end (State.left stages) fun s a s' r _ hs => (inv_step (inv_of_reach r) hs).2
  exact ⟨s', r', fun a => h a trivial⟩

theorem length_kept (stages : List (Stage V E)) (e : Executor) : (kept e stages).length = (links stages).length := by
  induction stages generalizing e with
  | nil => rfl
  | cons st rest ih =>
    cases h : st.isVia with
    | false => rw [kept_cons h, links_cons h, List.length_cons, List.length_cons, ih]
    | true =>
      cases st with
      | via e' => exact (ih e').trans (by rw [links_via])
      | _ => cases h

/-- The chain is built. -/
theorem Inv.built (h : Inv stages m s) (hp : s.pipeStep = none) : s.pipe = .next ∧ s.cur = (links stages).length := by
  have hnext : s.pipe = .next ∧ s.rest = [] := by
    unfold State.pipeStep at hp
    split at hp
    · next hpipe =>
      split at hp
      · next hr => exact ⟨hpipe, hr⟩
      · cases hp
      · cases hp
    · cases hp
    · split at hp <;> cases hp
    · cases hp
  obtain ⟨h1, h2⟩ := hnext
  have hl := h.chain.links
  rw [h1, h2] at hl
  have hge : (links stages).length ≤ s.cur := List.drop_eq_nil_iff.1 hl
  refine ⟨h1, le_antisymm ?_ hge⟩
  by_contra hlt
  have hsub : s.subscriber (links stages).length = .after := if_pos (by omega)
  have hu := h.chain.used _ hsub
  rw [List.getElem?_eq_none (by rw [length_kept])] at hu
  cases hu

/-- A callback that cannot go on has set the next future, or there is nothing to set it to. -/
theorem Inv.done_of_stuck (h : Inv stages m s) (hstuck : ∀ a, step m s a = none)
    (hst : (s.tasks i).started = true) (hv : (value stages m (i + 1)).isSome = true) : s.tasks i = .done := by
  have htask := (h.link i).task
  have hc := (h.link i).cell
  have hstarted := (h.link i).started.1 hst
  have ht : s.taskStep i = none := hstuck (.task i)
  have hin : s.innerStep i = none := hstuck (.inner i)
  change TaskOk stages m i (s.inners i) (s.innerSet i) (s.tasks i) at htask
  unfold State.taskStep at ht
  unfold State.innerStep at hin
  cases hp : s.tasks i <;> rw [hp] at hst ht htask hin
  case absent => cases hst
  case pending e r k =>
    obtain ⟨-, rfl, rfl, -⟩ := htask
    obtain ⟨r, hr⟩ := Option.isSome_iff_exists.1 (hc.hasResult (by rw [hstarted.1]; nofun))
    obtain ⟨st, hs⟩ := Option.isSome_iff_exists.1 (hc.hasCallback (by rw [hstarted.2]; nofun))
    rw [hr, hs] at ht
    cases ht
  case subscribe fut => cases ht
  case exchangeInner fut => cases ht
  case waiting fut =>
    obtain ⟨hsub, hci, hne⟩ := htask
    rw [hsub.value_succ] at hv
    cases hset : s.innerSet i with
    | before =>
      rw [hset] at hin
      have hnone : fut.result = none := Option.map_eq_none_iff.1 hin
      rw [Next.outcome, hnone] at hv
      cases hv
    | between => rw [hset] at hin; cases hin
    | after => exact absurd hset hne
  case innerPending e r =>
    obtain ⟨fut, -, -, -, hr⟩ := htask
    obtain ⟨r, rfl⟩ := Option.isSome_iff_exists.1 hr
    cases r <;> cases ht
  case thrown =>
    obtain ⟨fut, e, hsub, hr⟩ := htask
    rw [hsub.value_succ, Next.outcome, hr] at hv
    cases hv
  case set r => cases ht
  case exchange => cases ht

/-- Whatever a future of the chain is to be completed with, it has been completed. -/
theorem Inv.completed (h : Inv stages m s) (hstuck : ∀ a, step m s a = none) :
    ∀ i, i ≤ (links stages).length → (value stages m i).isSome = true → s.producer i = .after := by
  obtain ⟨hpipe, hcur⟩ := h.built (hstuck .pipe)
  intro i
  induction i with
  | zero =>
    intro _ hv
    have hp : s.promiseStep m = none := hstuck .promise
    unfold State.promiseStep at hp
    change s.promise = .after
    cases hpr : s.promise with
    | before =>
      rw [hpr] at hp
      change m.isSome = true at hv
      rw [Option.map_eq_none_iff.1 hp] at hv
      cases hv
    | between => rw [hpr] at hp; cases hp
    | after => rfl
  | succ i ih =>
    intro hi hv
    have hvi : (value stages m i).isSome = true := by
      cases hvi : value stages m i with
      | none => rw [value, hvi] at hv; cases hv
      | some r => rfl
    have hst : (s.tasks i).started = true :=
      (h.link i).started.2 ⟨ih (by omega) hvi, if_pos (by omega)⟩
    change (s.tasks i).sets = .after
    rw [h.done_of_stuck hstuck hst hv]
    rfl

/-- The result of a future of the chain at the end. -/
theorem Inv.result (h : Inv stages m s) (hstuck : ∀ a, step m s a = none) (hi : i ≤ (links stages).length) :
    (s.cells i).result = value stages m i := by
  have hc := (h.link i).cell
  have hr := hc.result
  change (s.cells i).result = if s.producer i = .before then none else value stages m i at hr
  rw [hr]
  split
  · next hp =>
    cases hv : value stages m i with
    | none => rfl
    | some r =>
      have hdone := h.completed hstuck i hi (by rw [hv]; rfl)
      rw [hp] at hdone
      cases hdone
  · rfl

/-- At the end every callback whose future is completed has been submitted, and has been called. -/
theorem Inv.ran (h : Inv stages m s) (hstuck : ∀ a, step m s a = none) (hi : i < (links stages).length)
    (hv : (value stages m i).isSome = true) : s.submits i = 1 ∧ s.calls i = called stages m i := by
  obtain ⟨hpipe, hcur⟩ := h.built (hstuck .pipe)
  have hl := h.link i
  have hst : (s.link i).task.started = true :=
    hl.started.2 ⟨h.completed hstuck i (by omega) hv, if_pos (by omega)⟩
  have hran : (s.link i).task.ran = true := by
    have htask := hl.task
    have ht : s.taskStep i = none := hstuck (.task i)
    have hstarted := hl.started.1 hst
    unfold State.taskStep at ht
    change (s.tasks i).started = true at hst
    change TaskOk stages m i (s.inners i) (s.innerSet i) (s.tasks i) at htask
    change (s.tasks i).ran = true
    cases hp : s.tasks i <;> rw [hp] at hst ht htask
    case absent => cases hst
    case pending e r k =>
      obtain ⟨-, rfl, rfl, -⟩ := htask
      obtain ⟨r, hr⟩ := Option.isSome_iff_exists.1 hv
      obtain ⟨st, hs⟩ := Option.isSome_iff_exists.1 (hl.cell.hasCallback (by rw [hstarted.2]; nofun))
      rw [hr, hs] at ht
      cases ht
    all_goals rfl
  have hsubmits := hl.submits
  have hcalls := hl.calls
  rw [hst] at hsubmits
  rw [hran] at hcalls
  exact ⟨hsubmits, hcalls⟩

/-- A callback is submitted once at most, and called on nothing else than it is to be called on. -/
theorem Inv.at_most_once (h : Inv stages m s) (i : Nat) :
    s.submits i ≤ 1 ∧ (s.calls i = [] ∨ s.calls i = called stages m i) := by
  have hsubmits : s.submits i = (s.tasks i).started.toNat := (h.link i).submits
  have hcalls : s.calls i = if (s.tasks i).ran then called stages m i else [] := (h.link i).calls
  refine ⟨hsubmits ▸ Bool.toNat_le _, ?_⟩
  rw [hcalls]
  cases (s.tasks i).ran with
  | false => exact .inl rfl
  | true => exact .inr rfl

/-- The result of a future of the chain, as soon as there is one. -/
theorem Inv.result_eq (h : Inv stages m s) {x : Result V E} (hx : (s.cells i).result = some x) :
    value stages m i = some x := by
  have hr := (h.link i).cell.result
  change (s.cells i).result = if s.producer i = .before then none else value stages m i at hr
  rw [hx] at hr
  split at hr
  · cases hr
  · exact hr.symm

end stuck

end Futures.Pipeline
