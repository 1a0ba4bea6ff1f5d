import ConcurrencyCourse.Coro.Coroutine

/-!
# `Coroutine`: control comes back to where it came from

`Inv` says that `context_stack` is the chain of the `Resume` calls that have not returned, that the `caller_context_`
of a coroutine in the chain is the context of its call, and that the `context_` of any other one is where it was left.
It is kept as long as coroutines are left in turn. A thread that leaves a coroutine out of turn takes the top of
`context_stack` for its own node: `controls_iff` says that nothing else goes wrong.
-/

namespace Coro

open Function Transition

variable {τ γ ε : Type}

/-- The chain of calls: who called whom, and what `context_stack` was. -/
def Linked : List (Call τ γ) → Prop
  | [] => True
  | call :: rest => (call.flow = .thread call.thread ∨
        ∃ outer ∈ rest, call.flow = .coro outer.coro ∧ outer.thread = call.thread) ∧
      (∀ other ∈ rest, other.coro ≠ call.coro ∧ other.number ≠ call.number) ∧
      call.before = rest.map (fun c => node c.coro) ∧ Linked rest

/-- The coroutine of a call that has not returned. -/
structure Entered (call : Call τ γ) (co : Coroutine τ γ ε) : Prop where
  running : co.completed = false
  noThrow : co.eptr = none
  caller : co.callerContext = .inResume call.flow call.coro call.number

structure Inv (s : State τ γ ε) : Prop where
  chain : s.stack = s.calls.map fun call => node call.coro
  linked : Linked s.calls
  calls : ∀ call ∈ s.calls, s.entered call.coro = some call.number ∧ call.number < s.clock ∧
    ∃ co, s.coro call.coro = some co ∧ Entered call co
  rests : ∀ c co, s.coro c = some co → co.completed = false → (∀ call ∈ s.calls, call.coro ≠ c) →
    co.eptr = none ∧ (co.context = .entry c ∨ co.context = .inSuspend (.coro c))
  runs : ∀ t, s.runs t = .thread t ∨ ∃ call ∈ s.calls, s.runs t = .coro call.coro ∧ call.thread = t

section linked

variable {calls rest : List (Call τ γ)} {call call' : Call τ γ}

theorem Linked.unique (h : Linked calls) (h1 : call ∈ calls) (h2 : call' ∈ calls) (hc : call.coro = call'.coro) :
    call = call' := by
  induction calls with
  | nil => cases h1
  | cons first rest ih =>
    obtain ⟨-, hne, -, hrest⟩ := h
    rcases List.mem_cons.1 h1 with h1 | h1 <;> rcases List.mem_cons.1 h2 with h2 | h2
    · exact h1.trans h2.symm
    · exact absurd (hc.symm.trans (congrArg Call.coro h1)) (hne call' h2).1
    · exact absurd (hc.trans (congrArg Call.coro h2)) (hne call h1).1
    · exact ih hrest h1 h2

/-- When the newest call returns, the others are left. -/
theorem Linked.close (h : Linked (call :: rest)) : (call :: rest).filter (·.number ≠ call.number) = rest := by
  obtain ⟨-, hne, -, -⟩ := h
  rw [List.filter_cons_of_neg (by simp), List.filter_eq_self]
  exact fun other hother => decide_eq_true (hne other hother).2

end linked

variable [DecidableEq τ] [DecidableEq γ]

section steps

variable {s s' : State τ γ ε} {t : τ} {c : γ} {e : Option ε} {r : Option (Return ε)} {co : Coroutine τ γ ε}

omit [DecidableEq τ] [DecidableEq γ] in
theorem inv_init : Inv (init : State τ γ ε) := ⟨rfl, trivial, nofun, nofun, fun _ => .inl rfl⟩

/-! ### One step -/

omit [DecidableEq τ] in
theorem setCoro_coro : (s.setCoro c co).coro c = some co := update_self ..

omit [DecidableEq τ] in
theorem setCoro_of_ne {d : γ} (h : d ≠ c) : (s.setCoro c co).coro d = s.coro d := update_of_ne h ..

omit [DecidableEq τ] in
/-- A coroutine is made. -/
theorem Inv.create (hi : Inv s) (hnone : s.coro c = none) : Inv (s.setCoro c ⟨.entry c, .empty, false, none⟩) := by
  refine ⟨hi.chain, hi.linked, fun call hcall => ?_, fun d co hd hrun hnot => ?_, hi.runs⟩
  · obtain ⟨h1, h2, co, hco, hent⟩ := hi.calls call hcall
    refine ⟨h1, h2, co, (setCoro_of_ne ?_).trans hco, hent⟩
    intro heq
    rw [heq, hnone] at hco
    cases hco
  · rcases eq_or_ne d c with rfl | hne
    · obtain rfl := Option.some.inj (setCoro_coro.symm.trans hd)
      exact ⟨rfl, .inl rfl⟩
    · exact hi.rests d co ((setCoro_of_ne hne).symm.trans hd) hrun hnot

/-- What `Resume` leads to: the thread runs on the stack of the coroutine. -/
theorem resume_eq (hi : Inv s) (hco : s.coro c = some co) (hrun : co.completed = false)
    (hnot : ∀ call ∈ s.calls, call.coro ≠ c) :
    s.resume t c = some (((s.push t c).setCoro c
      { co with callerContext := .inResume (s.runs t) c s.clock }).setRuns t (.coro c), none) := by
  have hpush : (s.push t c).coro c = some co := hco
  have hsave : (s.push t c).save (.inResume (s.runs t) c s.clock) (.caller c) =
      (s.push t c).setCoro c { co with callerContext := .inResume (s.runs t) c s.clock } := by
    simp only [State.save, hpush]
  have hctx := (hi.rests c co hco hrun hnot).2
  unfold State.resume State.switchTo
  rw [hsave]
  simp only [State.context, setCoro_coro, Option.map_some, Option.bind_some]
  rcases hctx with hctx | hctx <;> rw [hctx] <;> rfl

theorem Inv.resume (hi : Inv s) (hco : s.coro c = some co) (hrun : co.completed = false)
    (hnot : ∀ call ∈ s.calls, call.coro ≠ c) :
    Inv (((s.push t c).setCoro c
      { co with callerContext := .inResume (s.runs t) c s.clock }).setRuns t (.coro c)) := by
  have hrest := hi.rests c co hco hrun hnot
  have hnumber : ∀ call ∈ s.calls, call.number ≠ s.clock := fun call hcall =>
    Nat.ne_of_lt (hi.calls call hcall).2.1
  refine ⟨?_, ⟨?_, fun other hother => ⟨hnot other hother, hnumber other hother⟩, hi.chain, hi.linked⟩,
    fun call hcall => ?_, fun d co' hd hrun' hnot' => ?_, fun t' => ?_⟩
  · exact congrArg (node c :: ·) hi.chain
  · rcases hi.runs t with h | ⟨outer, hmem, h1, h2⟩
    · exact .inl h
    · exact .inr ⟨outer, hmem, h1, h2⟩
  · rcases List.mem_cons.1 hcall with rfl | hcall
    · exact ⟨update_self .., Nat.lt_succ_self _, _, setCoro_coro, hrun, hrest.1, rfl⟩
    · obtain ⟨h1, h2, co', hco', hent⟩ := hi.calls call hcall
      exact ⟨(update_of_ne (hnot call hcall) ..).trans h1, Nat.lt_succ_of_lt h2, co',
        (setCoro_of_ne (hnot call hcall)).trans hco', hent⟩
  · have hne : d ≠ c := fun heq => hnot' _ List.mem_cons_self heq.symm
    exact hi.rests d co' ((setCoro_of_ne hne).symm.trans hd) hrun' fun call hcall =>
      hnot' call (List.mem_cons_of_mem _ hcall)
  · rcases eq_or_ne t' t with rfl | hne
    · exact .inr ⟨_, List.mem_cons_self, update_self .., rfl⟩
    · rcases hi.runs t' with h | ⟨call, hmem, h1, h2⟩
      · exact .inl ((update_of_ne hne ..).trans h)
      · exact .inr ⟨call, List.mem_cons_of_mem _ hmem, (update_of_ne hne ..).trans h1, h2⟩

/-- The coroutine of the newest call is left, with `co` for its object, and the call returns. -/
def State.left (s : State τ γ ε) (t : τ) (call : Call τ γ) (rest : List (Call τ γ)) (co : Coroutine τ γ ε) :
    State τ γ ε :=
  (((s.setStack (rest.map fun call => node call.coro)).setCoro call.coro co).setRuns t call.flow).close call.number

section left

variable {call : Call τ γ} {rest : List (Call τ γ)}

theorem left_calls (hl : Linked (call :: rest)) (hc : s.calls = call :: rest) :
    (s.left t call rest co).calls = rest := by
  change s.calls.filter _ = rest
  rw [hc]
  exact hl.close

theorem Inv.left (hi : Inv s) (hc : s.calls = call :: rest) (ht : call.thread = t)
    (hco : co.completed = false → co.eptr = none ∧ (co.context = .entry call.coro ∨
      co.context = .inSuspend (.coro call.coro))) : Inv (s.left t call rest co) := by
  have hlinked : Linked (call :: rest) := hc ▸ hi.linked
  have hcalls : (s.left t call rest co).calls = rest := left_calls hlinked hc
  obtain ⟨hflow, hne, -, hrest⟩ := hlinked
  refine ⟨?_, ?_, fun call' hcall => ?_, fun d co' hd hrun hnot => ?_, fun t' => ?_⟩
  · rw [hcalls]
    rfl
  · rwa [hcalls]
  · rw [hcalls] at hcall
    obtain ⟨h1, h2, co', hco', hent⟩ := hi.calls call' (hc ▸ List.mem_cons_of_mem _ hcall)
    exact ⟨h1, h2, co', (setCoro_of_ne (hne call' hcall).1).trans hco', hent⟩
  · rw [hcalls] at hnot
    rcases eq_or_ne d call.coro with rfl | hd'
    · obtain rfl := Option.some.inj (setCoro_coro.symm.trans hd)
      exact hco hrun
    · refine hi.rests d co' ((setCoro_of_ne hd').symm.trans hd) hrun fun call' hcall => ?_
      rw [hc] at hcall
      rcases List.mem_cons.1 hcall with rfl | hcall
      · exact hd'.symm
      · exact hnot call' hcall
  · rw [hcalls]
    rcases eq_or_ne t' t with rfl | hne'
    · have hruns : (s.left t' call rest co).runs t' = call.flow := update_self ..
      rw [hruns]
      rcases hflow with h | ⟨outer, hmem, h1, h2⟩
      · exact .inl (h.trans (congrArg Flow.thread ht))
      · exact .inr ⟨outer, hmem, h1, h2.trans ht⟩
    · have hruns : (s.left t call rest co).runs t' = s.runs t' := update_of_ne hne' ..
      rw [hruns]
      rcases hi.runs t' with h | ⟨outer, hmem, h1, h2⟩
      · exact .inl h
      · rw [hc] at hmem
        rcases List.mem_cons.1 hmem with rfl | hmem
        · exact absurd (h2.symm.trans ht) hne'
        · exact .inr ⟨outer, hmem, h1, h2⟩

omit [DecidableEq τ] [DecidableEq γ] in
/-- Whoever runs in the coroutine of the newest call made that call. -/
theorem Inv.thread_eq (hi : Inv s) (hc : s.calls = call :: rest) (hruns : s.runs t = .coro call.coro) :
    call.thread = t := by
  rcases hi.runs t with h | ⟨call', hmem, h1, h2⟩
  · rw [hruns] at h
    cases h
  · have hcoro : call.coro = call'.coro := Flow.coro.inj (hruns.symm.trans h1)
    have hmem' : call ∈ s.calls := hc ▸ List.mem_cons_self
    rw [hi.linked.unique hmem' hmem hcoro]
    exact h2

/-- `Suspend` takes the newest call, whoever it is that runs. -/
theorem suspend_eq (hi : Inv s) (hc : s.calls = call :: rest) (hruns : s.runs t = .coro c)
    (hco : s.coro call.coro = some co) (hent : Entered call co) :
    s.suspend t = some (s.left t call rest { co with context := .inSuspend (.coro c) },
      some (call.number, none)) := by
  have hstack : s.stack = node call.coro :: rest.map fun call => node call.coro := by rw [hi.chain, hc]; rfl
  have hset : (s.setStack (rest.map fun call => node call.coro)).coro call.coro = some co := hco
  have hsave : (s.setStack (rest.map fun call => node call.coro)).save (.inSuspend (.coro c)) (.own call.coro) =
      (s.setStack (rest.map fun call => node call.coro)).setCoro call.coro
        { co with context := .inSuspend (.coro c) } := by
    simp only [State.save, hset]
  unfold State.suspend
  rw [hruns, hstack]
  change (s.setStack _).switchTo t (.own call.coro) (.caller call.coro) (.inSuspend (.coro c)) = _
  rw [State.switchTo, hsave]
  simp only [State.context, setCoro_coro, Option.map_some, Option.bind_some]
  rw [hent.caller]
  simp only [State.goOn, setCoro_coro, Option.bind_some, hent.noThrow]
  rfl

theorem finish_eq (hi : Inv s) (hc : s.calls = call :: rest) (hruns : s.runs t = .coro call.coro)
    (hco : s.coro call.coro = some co) (hent : Entered call co) :
    s.finish t e = some (s.left t call rest { co with completed := true, eptr := e }, some (call.number, e)) := by
  have hstack : s.stack = node call.coro :: rest.map fun call => node call.coro := by rw [hi.chain, hc]; rfl
  have hor : e.or co.eptr = e := by rw [hent.noThrow, Option.or_none]
  unfold State.finish
  rw [hruns, hstack]
  simp only [hco, hor, Option.bind_some, State.exitTo, State.context, setCoro_coro, Option.map_some]
  rw [hent.caller]
  simp only [State.goOn, setCoro_coro, Option.bind_some]
  rfl

/-- The states before and after, and what came back. -/
theorem Inv.controlled_left (hi : Inv s) {a : Act τ γ ε} (hc : s.calls = call :: rest)
    (hleaves : s.leaves a = some (call.coro, e)) (hsubject : s.subject a = some call.coro)
    (ha : ∀ t c, a ≠ .resume t c) (ht : call.thread = a.thread) :
    Controlled s a (s.left a.thread call rest co) (some (call.number, e)) := by
  have hlinked : Linked (call :: rest) := hc ▸ hi.linked
  have hcalls : (s.left a.thread call rest co).calls = rest := left_calls hlinked hc
  have hmem : call ∈ s.calls := hc ▸ List.mem_cons_self
  refine ⟨fun t c h => absurd h (ha t c), ?_, fun c e' h => ?_, fun h => ?_, fun k e' h => ?_, fun c hne => ?_⟩
  · rw [hcalls]
    rfl
  · rw [hleaves] at h
    obtain ⟨rfl, rfl⟩ := Prod.mk.inj (Option.some.inj h)
    rw [(hi.calls call hmem).1]
    rfl
  · rw [hleaves] at h
    cases h
  · obtain ⟨rfl, rfl⟩ := Prod.mk.inj (Option.some.inj h)
    exact ⟨call, hmem, rfl, ht, update_self .., hlinked.2.2.1.symm⟩
  · rw [hsubject] at hne
    exact setCoro_of_ne fun heq => hne (congrArg some heq.symm)

end left

omit [DecidableEq τ] [DecidableEq γ] in
/-- The newest call, when a coroutine is left in turn. -/
theorem InTurn.newest {a : Act τ γ ε} (h : InTurn s a) (hleaves : s.leaves a = some (c, e)) :
    ∃ call rest, s.calls = call :: rest ∧ call.coro = c := by
  have hhead := h c e hleaves
  cases hc : s.calls with
  | nil =>
    rw [hc] at hhead
    cases hhead
  | cons call rest =>
    rw [hc] at hhead
    exact ⟨call, rest, rfl, Option.some.inj hhead⟩

theorem Inv.step (hi : Inv s) {a : Act τ γ ε} (hp : Proper s a) (hin : InTurn s a) (hs : s.act a = some (s', r)) :
    Inv s' ∧ Controlled s a s' r := by
  cases a with
  | create t c =>
    simp only [State.act] at hs
    split at hs
    · next hnone =>
      obtain ⟨rfl, rfl⟩ := Prod.mk.inj (Option.some.inj hs)
      exact ⟨hi.create hnone, nofun, hi.chain, nofun, fun _ => rfl, nofun,
        fun d hne => setCoro_of_ne fun heq => hne (congrArg some heq.symm)⟩
    · cases hs
  | resume t c =>
    obtain ⟨⟨co, hco, hrun⟩, hnot⟩ := hp
    have heq := resume_eq (t := t) hi hco hrun hnot
    obtain ⟨rfl, rfl⟩ := Prod.mk.inj (Option.some.inj (heq.symm.trans hs))
    have hi' := hi.resume (t := t) hco hrun hnot
    refine ⟨hi', fun t' c' h => ?_, hi'.chain, nofun, fun _ => rfl, nofun,
      fun d hne => setCoro_of_ne fun heq => hne (congrArg some heq.symm)⟩
    obtain ⟨rfl, rfl⟩ := Act.resume.inj h
    exact update_self ..
  | suspend t =>
    cases hruns : s.runs t with
    | thread t' =>
      simp only [State.act, State.suspend, hruns] at hs
      cases hs
    | coro c =>
      have hleaves : s.leaves (.suspend t) = some (c, none) := by simp only [State.leaves, hruns]
      have hsubject : s.subject (.suspend t) = some c := by simp only [State.subject, hruns]
      obtain ⟨call, rest, hc, rfl⟩ := hin.newest hleaves
      obtain ⟨-, -, co, hco, hent⟩ := hi.calls call (hc ▸ List.mem_cons_self)
      have ht := hi.thread_eq hc hruns
      obtain ⟨rfl, rfl⟩ := Prod.mk.inj (Option.some.inj ((suspend_eq hi hc hruns hco hent).symm.trans hs))
      exact ⟨hi.left hc ht fun _ => ⟨hent.noThrow, .inr rfl⟩,
        hi.controlled_left (a := .suspend t) hc hleaves hsubject nofun ht⟩
  | finish t e =>
    cases hruns : s.runs t with
    | thread t' =>
      simp only [State.act, State.finish, hruns] at hs
      cases hs
    | coro c =>
      have hleaves : s.leaves (.finish t e) = some (c, e) := by simp only [State.leaves, hruns]
      have hsubject : s.subject (.finish t e : Act τ γ ε) = some c := by simp only [State.subject, hruns]
      obtain ⟨call, rest, hc, rfl⟩ := hin.newest hleaves
      obtain ⟨-, -, co, hco, hent⟩ := hi.calls call (hc ▸ List.mem_cons_self)
      have ht := hi.thread_eq hc hruns
      obtain ⟨rfl, rfl⟩ := Prod.mk.inj (Option.some.inj ((finish_eq hi hc hruns hco hent).symm.trans hs))
      exact ⟨hi.left hc ht nofun, hi.controlled_left (a := .finish t e) hc hleaves hsubject nofun ht⟩

/-- A completion takes the newest node, and ends the call of the coroutine that runs. -/
theorem finish_calls {call : Call τ γ} {n : ContextNode γ} {rest : List (ContextNode γ)} (hstack : s.stack = n :: rest)
    (hruns : s.runs t = .coro call.coro) (hco : s.coro call.coro = some co) (hent : Entered call co)
    (hs : s.finish t e = some (s', r)) : s'.stack = rest ∧ s'.calls = s.calls.filter (·.number ≠ call.number) := by
  unfold State.finish at hs
  rw [hruns, hstack] at hs
  simp only [hco, Option.bind_some, State.exitTo, State.context, setCoro_coro, Option.map_some] at hs
  rw [hent.caller] at hs
  obtain ⟨rfl, -⟩ := Prod.mk.inj (Option.some.inj hs)
  exact ⟨rfl, rfl⟩

/-- A coroutine that is left out of turn does not do what it should. -/
theorem Inv.inTurn (hi : Inv s) {a : Act τ γ ε} (hs : s.act a = some (s', r)) (hctl : Controlled s a s' r) :
    InTurn s a := by
  intro c e hleaves
  have hruns : s.runs a.thread = .coro c := by
    cases a with
    | create t c => cases hleaves
    | resume t c => cases hleaves
    | suspend t =>
      simp only [State.leaves] at hleaves
      split at hleaves
      · next heq => rw [Act.thread, heq, ← (Prod.mk.inj (Option.some.inj hleaves)).1]
      · cases hleaves
    | finish t e =>
      simp only [State.leaves] at hleaves
      split at hleaves
      · next heq => rw [Act.thread, heq, ← (Prod.mk.inj (Option.some.inj hleaves)).1]
      · cases hleaves
  obtain ⟨call, hmem, rfl⟩ : ∃ call ∈ s.calls, call.coro = c := by
    rcases hi.runs a.thread with h | ⟨call, hmem, h1, -⟩
    · rw [hruns] at h
      cases h
    · exact ⟨call, hmem, Flow.coro.inj (h1.symm.trans hruns)⟩
  have hlinked := hi.linked
  cases hc : s.calls with
  | nil =>
    rw [hc] at hmem
    cases hmem
  | cons top rest =>
    rw [hc] at hlinked
    by_contra hne
    have hne : call.coro ≠ top.coro := fun heq => hne (congrArg some heq.symm)
    have hrest : call ∈ rest := by
      rw [hc] at hmem
      rcases List.mem_cons.1 hmem with rfl | hmem
      · exact absurd rfl hne
      · exact hmem
    have hnumber := (hlinked.2.1 call hrest).2
    obtain ⟨hent, -, co, hco, hentered⟩ := hi.calls call hmem
    have hret := hctl.returns call.coro e hleaves
    rw [hent] at hret
    cases a with
    | create t c => cases hleaves
    | resume t c => cases hleaves
    | suspend t =>
      -- control comes out of the call on top
      obtain ⟨-, -, co', hco', hentered'⟩ := hi.calls top (hc ▸ List.mem_cons_self)
      obtain ⟨rfl, rfl⟩ := Prod.mk.inj (Option.some.inj ((suspend_eq hi hc hruns hco' hentered').symm.trans hs))
      exact hnumber (Prod.mk.inj (Option.some.inj hret)).1.symm
    | finish t e' =>
      -- the node on top is gone, and its call has not returned
      have hstack : s.stack = node top.coro :: rest.map fun call => node call.coro := by rw [hi.chain, hc]; rfl
      obtain ⟨hstack', hcalls'⟩ := finish_calls hstack hruns hco hentered hs
      have htop : top ∈ s'.calls := by
        rw [hcalls', List.mem_filter]
        exact ⟨hc ▸ List.mem_cons_self, decide_eq_true hnumber.symm⟩
      have hnode : node top.coro ∈ rest.map fun call => node call.coro := by
        rw [← hstack', hctl.chain]
        exact List.mem_map_of_mem htop
      obtain ⟨other, hother, heq⟩ := List.mem_map.1 hnode
      have hcoro : other.coro = top.coro := ContextPtr.own.inj (ContextNode.mk.inj heq).2
      exact (hlinked.2.1 other hother).1 hcoro

end steps

/-! ### Every run -/

section run

variable {h : History (State τ γ ε) (Act τ γ ε)} {s : State τ γ ε}

/-- Every step of the run did what it should. -/
def Controls (h : History (State τ γ ε) (Act τ γ ε)) : Prop :=
  ∀ a s₀, (a, s₀) ∈ h → ∀ s₁ r, s₀.act a = some (s₁, r) → Controlled s₀ a s₁ r

omit [DecidableEq τ] [DecidableEq γ] in
theorem forall_cons {P : Act τ γ ε → State τ γ ε → Prop} {a : Act τ γ ε} :
    (∀ b s₀, (b, s₀) ∈ (a, s) :: h → P b s₀) ↔ P a s ∧ ∀ b s₀, (b, s₀) ∈ h → P b s₀ := by
  constructor
  · intro hall
    exact ⟨hall a s List.mem_cons_self, fun b s₀ hmem => hall b s₀ (List.mem_cons_of_mem _ hmem)⟩
  · rintro ⟨hhead, htail⟩ b s₀ hmem
    rcases List.mem_cons.1 hmem with heq | hmem
    · obtain ⟨rfl, rfl⟩ := Prod.mk.inj heq
      exact hhead
    · exact htail b s₀ hmem

theorem inv_of_inTurn (r : Run (system τ γ ε) Proper h s) :
    ((∀ a s₀, (a, s₀) ∈ h → InTurn s₀ a) → Inv s) ∧
      ((∀ a s₀, (a, s₀) ∈ h → InTurn s₀ a) ↔ Controls h) := by
  induction r with
  | init hinit =>
    obtain rfl := hinit
    exact ⟨fun _ => inv_init, ⟨nofun, nofun⟩⟩
  | @step h s s' a _ hp hs ih =>
    obtain ⟨ihinv, ihiff⟩ := ih
    obtain ⟨⟨s₁, r⟩, hact, rfl⟩ := Option.map_eq_some_iff.1 hs
    unfold Controls
    rw [forall_cons, forall_cons]
    refine ⟨fun ⟨hin, hall⟩ => ((ihinv hall).step hp hin hact).1, fun ⟨hin, hall⟩ => ⟨?_, ihiff.1 hall⟩,
      fun ⟨hctl, hall⟩ => ?_⟩
    · intro s₂ r₂ hact₂
      exact ((ihinv hall).step hp hin hact₂).2
    · have hall' := ihiff.2 hall
      exact ⟨(ihinv hall').inTurn hact (hctl s₁ r hact), hall'⟩

/-- A run of a program that resumes no running or completed coroutine: control goes where it should in all of it, if
and only if every coroutine is left in turn. -/
theorem controls_iff (r : Run (system τ γ ε) Proper h s) :
    Controls h ↔ ∀ a s₀, (a, s₀) ∈ h → InTurn s₀ a :=
  (inv_of_inTurn r).2.symm

end run

/-! ### Control passes from thread to thread outside of the coroutines -/

section alone

variable {s s' : State τ γ ε} {a : Act τ γ ε} {c : γ} {e : Option ε} {r : Option (Return ε)}

/-- All the `Resume` calls that have not returned were made by the thread that acts. -/
def Alone (s : State τ γ ε) (a : Act τ γ ε) : Prop := ∀ call ∈ s.calls, call.thread = a.thread

/-- On which stack the newest of these calls leaves its thread `t`. -/
def top (t : τ) : List (Call τ γ) → Flow τ γ
  | [] => .thread t
  | call :: _ => .coro call.coro

/-- Each call was made in the coroutine of the call below it, and the thread of the newest call runs in its
coroutine. -/
structure Nested (s : State τ γ ε) : Prop where
  direct : ∀ call rest, call :: rest <:+ s.calls → call.flow = top call.thread rest
  newest : ∀ call rest, s.calls = call :: rest → s.runs call.thread = .coro call.coro

omit [DecidableEq τ] [DecidableEq γ] in
/-- Only a coroutine that runs is left. -/
theorem runs_of_leaves (hleaves : s.leaves a = some (c, e)) : s.runs a.thread = .coro c := by
  cases a with
  | create t d => cases hleaves
  | resume t d => cases hleaves
  | suspend t =>
    cases hruns : s.runs t with
    | thread t' =>
      simp only [State.leaves, hruns] at hleaves
      cases hleaves
    | coro d =>
      simp only [State.leaves, hruns] at hleaves
      exact hruns.trans (congrArg Flow.coro (Prod.mk.inj (Option.some.inj hleaves)).1)
  | finish t e' =>
    cases hruns : s.runs t with
    | thread t' =>
      simp only [State.leaves, hruns] at hleaves
      cases hleaves
    | coro d =>
      simp only [State.leaves, hruns] at hleaves
      exact hruns.trans (congrArg Flow.coro (Prod.mk.inj (Option.some.inj hleaves)).1)

omit [DecidableEq τ] [DecidableEq γ] in
theorem Inv.top_of_alone (hi : Inv s) (hn : Nested s) (ha : Alone s a) : s.runs a.thread = top a.thread s.calls := by
  cases hc : s.calls with
  | nil =>
    rcases hi.runs a.thread with h | ⟨call, hmem, -, -⟩
    · exact h
    · rw [hc] at hmem
      cases hmem
  | cons call rest =>
    rw [← ha call (hc ▸ List.mem_cons_self)]
    exact hn.newest call rest hc

omit [DecidableEq τ] [DecidableEq γ] in
theorem Nested.inTurn (hn : Nested s) (hi : Inv s) (ha : Alone s a) : InTurn s a := by
  intro c e hleaves
  have htop := (runs_of_leaves hleaves).symm.trans (hi.top_of_alone hn ha)
  cases hc : s.calls with
  | nil =>
    rw [hc] at htop
    cases htop
  | cons call rest =>
    rw [hc] at htop
    exact congrArg some (Flow.coro.inj htop).symm

/-- What an action does to the calls and to what the threads run. -/
theorem Inv.act_cases (hi : Inv s) (hp : Proper s a) (hin : InTurn s a) (hs : s.act a = some (s', r)) :
    (s'.calls = s.calls ∧ s'.runs = s.runs) ∨
    (∃ c, s'.calls = ⟨s.clock, c, a.thread, s.runs a.thread, s.stack⟩ :: s.calls ∧
      s'.runs = update s.runs a.thread (.coro c)) ∨
    ∃ call rest, s.calls = call :: rest ∧ s'.calls = rest ∧ s'.runs = update s.runs a.thread call.flow := by
  cases a with
  | create t c =>
    simp only [State.act] at hs
    split at hs
    · obtain ⟨rfl, rfl⟩ := Prod.mk.inj (Option.some.inj hs)
      exact .inl ⟨rfl, rfl⟩
    · cases hs
  | resume t c =>
    obtain ⟨⟨co, hco, hrun⟩, hnot⟩ := hp
    obtain ⟨rfl, rfl⟩ := Prod.mk.inj (Option.some.inj ((resume_eq (t := t) hi hco hrun hnot).symm.trans hs))
    exact .inr (.inl ⟨c, rfl, rfl⟩)
  | suspend t =>
    cases hruns : s.runs t with
    | thread t' =>
      simp only [State.act, State.suspend, hruns] at hs
      cases hs
    | coro c =>
      have hleaves : s.leaves (.suspend t) = some (c, none) := by simp only [State.leaves, hruns]
      obtain ⟨call, rest, hc, rfl⟩ := hin.newest hleaves
      obtain ⟨-, -, co, hco, hent⟩ := hi.calls call (hc ▸ List.mem_cons_self)
      obtain ⟨rfl, rfl⟩ := Prod.mk.inj (Option.some.inj ((suspend_eq hi hc hruns hco hent).symm.trans hs))
      exact .inr (.inr ⟨call, rest, hc, left_calls (hc ▸ hi.linked) hc, rfl⟩)
  | finish t e =>
    cases hruns : s.runs t with
    | thread t' =>
      simp only [State.act, State.finish, hruns] at hs
      cases hs
    | coro c =>
      have hleaves : s.leaves (.finish t e) = some (c, e) := by simp only [State.leaves, hruns]
      obtain ⟨call, rest, hc, rfl⟩ := hin.newest hleaves
      obtain ⟨-, -, co, hco, hent⟩ := hi.calls call (hc ▸ List.mem_cons_self)
      obtain ⟨rfl, rfl⟩ := Prod.mk.inj (Option.some.inj ((finish_eq hi hc hruns hco hent).symm.trans hs))
      exact .inr (.inr ⟨call, rest, hc, left_calls (hc ▸ hi.linked) hc, rfl⟩)

theorem Nested.step (hn : Nested s) (hi : Inv s) (ha : Alone s a) (hp : Proper s a) (hs : s.act a = some (s', r)) :
    Nested s' := by
  rcases hi.act_cases hp (hn.inTurn hi ha) hs with
    ⟨hcalls, hruns⟩ | ⟨c, hcalls, hruns⟩ | ⟨call, rest, hc, hcalls, hruns⟩
  · exact ⟨hcalls ▸ hn.direct, hcalls ▸ hruns ▸ hn.newest⟩
  · refine ⟨fun call rest hsuffix => ?_, fun call rest hcons => ?_⟩
    · rw [hcalls, List.suffix_cons_iff] at hsuffix
      rcases hsuffix with heq | hsuffix
      · obtain ⟨rfl, rfl⟩ := List.cons.inj heq
        exact hi.top_of_alone hn ha
      · exact hn.direct call rest hsuffix
    · obtain ⟨rfl, rfl⟩ := List.cons.inj (hcalls.symm.trans hcons)
      rw [hruns]
      exact update_self ..
  · refine ⟨fun call' rest' hsuffix => ?_, fun outer rest' hcons => ?_⟩
    · rw [hcalls] at hsuffix
      exact hn.direct call' rest' (hc ▸ hsuffix.trans (List.suffix_cons call rest))
    · obtain rfl := hcalls.symm.trans hcons
      have hflow := hn.direct call (outer :: rest') (hc ▸ List.suffix_refl _)
      rw [hruns, ha outer (hc ▸ List.mem_cons_of_mem _ List.mem_cons_self)]
      exact (update_self ..).trans hflow

theorem nested_of_alone {h : History (State τ γ ε) (Act τ γ ε)}
    (r : Run (system τ γ ε) (fun s a => Proper s a ∧ Alone s a) h s) : Inv s ∧ Nested s := by
  induction r with
  | init hinit =>
    obtain rfl := hinit
    exact ⟨inv_init, fun _ _ hsuffix => absurd (List.suffix_nil.1 hsuffix) (List.cons_ne_nil _ _), by rintro _ _ ⟨⟩⟩
  | step _ hok hs ih =>
    obtain ⟨⟨s₁, r⟩, hact, rfl⟩ := Option.map_eq_some_iff.1 hs
    obtain ⟨hi, hn⟩ := ih
    exact ⟨(hi.step hok.1 (hn.inTurn hi hok.2) hact).1, hn.step hi hok.2 hok.1 hact⟩

/-- A program whose threads let each other run outside of the coroutines only, and that resumes no coroutine that is
running or completed: control goes where it should in all its steps, though there is one `context_stack` for all the
threads. -/
theorem controls_of_alone {h : History (State τ γ ε) (Act τ γ ε)}
    (r : Run (system τ γ ε) (fun s a => Proper s a ∧ Alone s a) h s) : Controls h := by
  induction r with
  | init _ => exact nofun
  | @step h s s' a r hok _ ih =>
    obtain ⟨hi, hn⟩ := nested_of_alone r
    exact forall_cons.2 ⟨fun s₁ ret hact => (hi.step hok.1 (hn.inTurn hi hok.2) hact).2, ih⟩

end alone

/-! ### Two programs -/

section runs

def checkProper (s : State τ γ ε) : Act τ γ ε → Bool
  | .resume _ c => (s.coro c).any (fun co => !co.completed) && s.calls.all fun call => decide (call.coro ≠ c)
  | _ => true

omit [DecidableEq τ] in
theorem proper_of_check (s : State τ γ ε) (a : Act τ γ ε) (h : checkProper s a = true) : Proper s a := by
  cases a with
  | resume t c =>
    simp only [checkProper, Bool.and_eq_true, Option.any_eq_true, Bool.not_eq_true', List.all_eq_true,
      decide_eq_true_eq] at h
    exact h
  | _ => trivial

def checkInTurn (s : State τ γ ε) (a : Act τ γ ε) : Bool :=
  (s.leaves a).all fun r => s.calls.head?.map (·.coro) == some r.1

omit [DecidableEq τ] in
theorem proper_inTurn_of_check (s : State τ γ ε) (a : Act τ γ ε) (h : (checkProper s a && checkInTurn s a) = true) :
    Proper s a ∧ InTurn s a := by
  obtain ⟨h1, h2⟩ := (Bool.and_eq_true _ _).mp h
  refine ⟨proper_of_check s a h1, fun c e hleaves => ?_⟩
  rw [checkInTurn, hleaves] at h2
  exact eq_of_beq h2

/-- Thread 0 resumes coroutine 0, which resumes coroutine 1; both suspend. Thread 1 resumes coroutine 1, from which
an exception escapes; thread 0 resumes coroutine 0 to its end. -/
theorem controls_nested : ∃ (h : History (State (Fin 2) (Fin 2) Nat) (Act (Fin 2) (Fin 2) Nat))
    (s : State (Fin 2) (Fin 2) Nat), (s.stack = [] ∧ (s.coro 1).bind (·.eptr) = some 7) ∧ Controls h := by
  obtain ⟨s, ⟨h, r⟩, hp⟩ := Reach.of_exec (system (Fin 2) (Fin 2) Nat)
    [.create 0 0, .create 0 1, .resume 0 0, .resume 0 1, .suspend 0, .suspend 0, .resume 1 1, .finish 1 (some 7),
      .resume 0 0, .finish 0 none]
    (fun s => s.stack = [] ∧ (s.coro 1).bind (·.eptr) = some 7) proper_inTurn_of_check (s := init) rfl (by decide)
  exact ⟨h, s, of_decide_eq_true hp,
    (controls_iff (r.mono fun _ _ hok => hok.1)).2 fun a s₀ hmem => (r.step_ok hmem).2⟩

/-- Thread 0 runs in coroutine 0 and lets thread 1 run, which resumes coroutine 1 and lets thread 0 run. That
suspends, and goes on on the stack of thread 1, behind the call that entered coroutine 1. -/
theorem suspends_into_other_thread : ∃ (h : History (State (Fin 2) (Fin 2) Nat) (Act (Fin 2) (Fin 2) Nat))
    (s s' : State (Fin 2) (Fin 2) Nat) (r : Option (Return Nat)), Run (system (Fin 2) (Fin 2) Nat) Proper h s ∧
      (s.runs 0 = .coro 0 ∧ s.act (.suspend 0) = some (s', r) ∧ s'.runs 0 = .thread 1) ∧
      ¬ Controlled s (.suspend 0) s' r := by
  obtain ⟨s, ⟨h, r⟩, hp⟩ := Reach.of_exec (system (Fin 2) (Fin 2) Nat)
    [.create 0 0, .create 0 1, .resume 0 0, .resume 1 1]
    (fun s => (s.runs 0 = .coro 0 ∧ s.entered 0 = some 0) ∧
      (s.act (.suspend 0)).any fun x => decide (x.1.runs 0 = .thread 1 ∧ x.2 = some (1, none)))
    proper_of_check (s := init) rfl (by decide)
  obtain ⟨⟨hruns, hentered⟩, hact⟩ := of_decide_eq_true hp
  obtain ⟨⟨s', ret⟩, hact, hx⟩ := (Option.any_eq_true _ _).1 hact
  obtain ⟨hruns', hret⟩ := of_decide_eq_true hx
  refine ⟨h, s, s', ret, r, ⟨hruns, hact, hruns'⟩, fun hctl => ?_⟩
  have hleaves : s.leaves (.suspend 0) = some (0, none) := by simp only [State.leaves, hruns]
  have hret : ret = some (1, none) := hret
  have hback := hctl.returns 0 none hleaves
  rw [hret, hentered] at hback
  cases hback

def checkAlone (s : State τ γ ε) (a : Act τ γ ε) : Bool := s.calls.all fun call => decide (call.thread = a.thread)

theorem proper_alone_of_check (s : State τ γ ε) (a : Act τ γ ε) (h : (checkProper s a && checkAlone s a) = true) :
    Proper s a ∧ Alone s a := by
  obtain ⟨h1, h2⟩ := (Bool.and_eq_true _ _).mp h
  exact ⟨proper_of_check s a h1, fun call hcall => of_decide_eq_true (List.all_eq_true.1 h2 call hcall)⟩

/-- Thread 0 goes through coroutine 0 into coroutine 1 and back; when it is outside of both, thread 1 goes on with
coroutine 0. -/
theorem controls_of_alone_two : ∃ (h : History (State (Fin 2) (Fin 2) Nat) (Act (Fin 2) (Fin 2) Nat))
    (s : State (Fin 2) (Fin 2) Nat), (s.stack = [] ∧ (s.coro 0).bind (·.eptr) = some 7) ∧ Controls h := by
  obtain ⟨s, ⟨h, r⟩, hp⟩ := Reach.of_exec (system (Fin 2) (Fin 2) Nat)
    [.create 0 0, .create 0 1, .resume 0 0, .resume 0 1, .suspend 0, .suspend 0, .resume 1 0, .finish 1 (some 7)]
    (fun s => s.stack = [] ∧ (s.coro 0).bind (·.eptr) = some 7) proper_alone_of_check (s := init) rfl (by decide)
  exact ⟨h, s, of_decide_eq_true hp, controls_of_alone r⟩

end runs

end Coro
