import RainWebServer.Util.TimerQueueAccounts

/-!
# TimerQueue: Every Timer Runs When It Is Due

## Main results

- `Inv.readsDue` : a call of `handleRead` runs exactly the timers that are due
- `timerQueue_runs_due_timers` : what holds of every run
-/

namespace RainWebServer.Util

open RainWebServer.Lib

namespace TimerQueue

/-! ## §1 One call of `handleRead` -/

/-- The entries that were run, each with the reading of the clock. -/
def runsOf (log : List Event) : List (Entry × Int) :=
  log.filterMap (fun ev => match ev with
    | .ran e _ now => some (e, now)
    | .deleted _ => none)

theorem runsOf_append (log : List Event) (ev : Event) :
    runsOf (log ++ [ev]) = runsOf log ++ runsOf [ev] :=
  List.filterMap_append

/-- The action is a call of `handleRead`. -/
def Act.IsRead : Act → Prop
  | .handleRead _ => True
  | _ => False

/-- The state during and after a call of `handleRead` that took `batch` out of `timers_` and left
    `kept` there, before the next one. -/
structure Reading (now : Int) (batch kept : List Entry) (before : List (Entry × Int))
    (q : TimerQueue) : Prop where
  kept_mem : ∀ e ∈ kept, e ∈ q.timers_
  calling : ∀ now' called todo, q.phase = .calling now' called todo →
    now' = now ∧ called ++ todo = batch ∧ runsOf q.log = before ++ called.map (·, now)
  ran : (∀ now' called todo, q.phase ≠ .calling now' called todo) →
    runsOf q.log = before ++ batch.map (·, now)

/-- **One action** of such a call. -/
theorem Reading.step {now : Int} {batch kept : List Entry} {before : List (Entry × Int)}
    {q q' : TimerQueue} {a : Act} (h : q.Reading now batch kept before) (hinv : q.Inv)
    (hs : Steps q a q') (ha : ¬a.IsRead) : q'.Reading now batch kept before := by
  cases hs with
  | @addTimer p request now' hphase hfree hp =>
    have hnot := hinv.not_mem_of_free hfree request.when_
    refine ⟨fun e he => ?_, h.calling, h.ran⟩
    exact (insertSorted_perm Entry.strictTotal hnot).mem_iff.mpr
      (List.mem_cons_of_mem _ (h.kept_mem e he))
  | expire harmed => exact ⟨h.kept_mem, h.calling, h.ran⟩
  | handleRead hphase => exact absurd trivial ha
  | @runTimer now' called todo e t hphase ht =>
    -- the runs since `before` are the part of the batch that has been gone through
    obtain ⟨hnow, hbatch, hruns⟩ := h.calling now' called (e :: todo) hphase
    refine ⟨h.kept_mem, fun now'' called' todo' hphase' => ?_,
      fun hnot => absurd rfl (hnot now' (called ++ [e]) todo)⟩
    cases hphase'
    refine ⟨hnow, by rw [List.append_assoc]; exact hbatch, ?_⟩
    show runsOf (q.log ++ [_]) = _
    rw [runsOf_append, hruns, List.append_assoc, List.map_append, ← hnow]
    rfl
  | @beginReset now' called hphase =>
    obtain ⟨-, hbatch, hruns⟩ := h.calling now' called [] hphase
    refine ⟨h.kept_mem, fun now'' called' todo' hphase' => (by cases hphase'), fun _ => ?_⟩
    -- nothing of the batch is left, so what has been run is the whole of it
    rw [← hbatch, List.append_nil]
    exact hruns
  | @restart e rest t restartNow now' hphase ht hrepeat =>
    have hbatch : e ∈ q.phase.todo ++ q.phase.called := by
      rw [hphase]
      exact List.mem_cons_self ..
    have hnot := hinv.not_mem_of_batch hbatch (t.restart restartNow).expiration_
    refine ⟨fun e' he' => ?_, fun now'' called' todo' hphase' => (by cases hphase'), fun _ => ?_⟩
    · show e' ∈ ((q.restarted e.2 t restartNow).rearmed now').timers_
      rw [rearmed_timers_]
      exact (insertSorted_perm Entry.strictTotal hnot).mem_iff.mpr
        (List.mem_cons_of_mem _ (h.kept_mem e' he'))
    · show runsOf ((q.restarted e.2 t restartNow).rearmed now').log = _
      rw [rearmed_log]
      -- `restart` logs no run
      exact h.ran (by simp [hphase])
  | @delete e rest t restartNow now' hphase ht hrepeat =>
    refine ⟨fun e' he' => ?_, fun now'' called' todo' hphase' => (by cases hphase'), fun _ => ?_⟩
    · show e' ∈ ((q.dropped e.2 t).rearmed now').timers_
      rw [rearmed_timers_]
      exact h.kept_mem e' he'
    · show runsOf ((q.dropped e.2 t).rearmed now').log = _
      rw [rearmed_log]
      show runsOf (q.log ++ [_]) = _
      -- `deleted` is an event, but not a run
      rw [runsOf_append, h.ran (by simp [hphase])]
      exact List.append_nil _
  | endRead hphase =>
    refine ⟨h.kept_mem, fun now'' called' todo' hphase' => (by cases hphase'), fun _ => ?_⟩
    exact h.ran (by simp [hphase])

/-- The loop of `reset` ends. -/
theorem Inv.reset_returns {q : TimerQueue} (h : q.Inv) {rest : List Entry}
    (hphase : q.phase = .resetting rest) :
    ∃ as t, machine.Reaches q as t ∧ t.phase = .outside ∧ ∀ a ∈ as, ¬a.IsRead := by
  induction rest generalizing q with
  | nil =>
    refine ⟨[.endRead], { q with phase := .outside }, ?_, rfl, ?_⟩
    · exact Machine.Reaches.cons (decide_eq_true hphase) rfl .refl
    · intro a ha
      rw [List.mem_singleton.mp ha]
      exact id
  | cons e rest ih =>
    have henabled : q.enabled (.resetTimer 0 0) = true := by simp [enabled, hphase]
    obtain ⟨q', hstep, hs⟩ := h.steps henabled
    have hphase' : q'.phase = .resetting rest := by
      cases hs with
      | restart hp _ _ =>
        rw [hphase] at hp
        cases hp
        rfl
      | delete hp _ _ =>
        rw [hphase] at hp
        cases hp
        rfl
    obtain ⟨as, t, hrun, hout, has⟩ := ih (h.step hs) hphase'
    exact ⟨.resetTimer 0 0 :: as, t, Machine.Reaches.cons henabled hstep hrun, hout,
      List.forall_mem_cons.mpr ⟨id, has⟩⟩

/-- So does the loop that calls `run`, when the callbacks return. -/
theorem Inv.calls_return {q : TimerQueue} (h : q.Inv) {now : Int} {called todo : List Entry}
    (hphase : q.phase = .calling now called todo) :
    ∃ as t, machine.Reaches q as t ∧ t.phase = .outside ∧ ∀ a ∈ as, ¬a.IsRead := by
  induction todo generalizing q called with
  | nil =>
    have henabled : q.enabled .beginReset = true := by simp [enabled, hphase]
    have hs : Steps q .beginReset { q with phase := .resetting called } := .beginReset hphase
    obtain ⟨as, t, hrun, hout, has⟩ := (h.step hs).reset_returns rfl
    refine ⟨.beginReset :: as, t, Machine.Reaches.cons henabled ?_ hrun, hout,
      List.forall_mem_cons.mpr ⟨id, has⟩⟩
    show TimerQueue.step q .beginReset = _
    simp only [TimerQueue.step, hphase]
  | cons e todo ih =>
    have henabled : q.enabled .runTimer = true := by simp [enabled, hphase]
    obtain ⟨q', hstep, hs⟩ := h.steps henabled
    have hphase' : q'.phase = .calling now (called ++ [e]) todo := by
      cases hs with
      | runTimer hp _ =>
        rw [hphase] at hp
        cases hp
        rfl
    obtain ⟨as, t, hrun, hout, has⟩ := ih (h.step hs) hphase'
    exact ⟨.runTimer :: as, t, Machine.Reaches.cons henabled hstep hrun, hout,
      List.forall_mem_cons.mpr ⟨id, has⟩⟩

/-! ## §2 Runs -/

/-- Every timer in memory is in `timers_` exactly once, under its expiration, and nothing else is
    there. -/
structure InPlace (q : TimerQueue) : Prop where
  once : ∀ p t, q.heap p = some t →
    q.timers_.filter (fun e => e.2 = p) = [(t.expiration_, p)]
  live : ∀ e ∈ q.timers_, ∃ t, q.heap e.2 = some t

/-- The timer of the n-th call, if the call did not ask for a repeating one: it waits, or
    `handleRead` has run it and not yet deleted it, or it was run once and then deleted once. The
    clock has not been read earlier than the time that was asked for. -/
def OneShot (q : TimerQueue) (n : Nat) (r : Request) : Prop :=
  (∃ p t, q.heap p = some t ∧ t.callback_ = n ∧ t.expiration_ = r.when_ ∧ q.history n = []) ∨
  (q.phase ≠ .outside ∧ ∃ p t e now, q.heap p = some t ∧ t.callback_ = n ∧ r.when_ ≤ now ∧
    q.history n = [.ran e n now]) ∨
  ((∀ p t, q.heap p = some t → t.callback_ ≠ n) ∧
    ∃ e now, r.when_ ≤ now ∧ q.history n = [.ran e n now, .deleted n])

/-- The timer of the n-th call, if the call asked for a repeating one: it is never deleted. -/
def Repeating (q : TimerQueue) (n : Nat) (r : Request) : Prop :=
  ∃ p t, q.heap p = some t ∧ t.callback_ = n ∧ t.repeat_ = true ∧ t.interval_ = r.interval

/-- A call of `handleRead` at `q`, which reads the clock at `now`, returns; until the next one it
    has run the timers that were due, each once and in the order of `timers_`, and the others are
    where they were. -/
structure ReadsDue (q : TimerQueue) (now : Int) : Prop where
  runs : ∀ as t, machine.Reaches q (.handleRead now :: as) t → (∀ a ∈ as, ¬a.IsRead) →
    t.phase = .outside →
    runsOf t.log = runsOf q.log ++ (q.timers_.filter (fun e => e.1 ≤ now)).map (·, now) ∧
      ∀ e ∈ q.timers_, now < e.1 → e ∈ t.timers_
  returns : ∃ as t, machine.Reaches q (.handleRead now :: as) t ∧ (∀ a ∈ as, ¬a.IsRead) ∧
    t.phase = .outside

theorem machine_invariant : machine.Invariant new (fun q => q.Inv ∧ q.Accounts) := by
  refine ⟨⟨inv_new, accounts_new⟩, fun q a h ha => ?_⟩
  obtain ⟨q', hstep, hs⟩ := h.1.steps ha
  exact ⟨q', hstep, h.1.step hs, h.2.step h.1 hs⟩

theorem Inv.inPlace {q : TimerQueue} (h : q.Inv) (hphase : q.phase = .outside) : q.InPlace := by
  have hentries : q.entries = q.timers_ := by
    rw [entries, hphase]
    exact List.append_nil _
  have hregistered := h.registered
  rw [hentries] at hregistered
  refine ⟨fun p t ht => hregistered.filter_eq ht, fun e he => ?_⟩
  obtain ⟨t, ht, -⟩ := hregistered.keyed e he
  exact ⟨t, ht⟩

/-- A call has its timer, or that was a one-shot timer which has been run and deleted. -/
theorem Accounts.live_or_gone {q : TimerQueue} (h : q.Accounts) {n : Nat} {r : Request}
    (hr : q.requests[n]? = some r) :
    (∃ p t, q.heap p = some t ∧ t.callback_ = n ∧ t.interval_ = r.interval ∧
      t.repeat_ = r.interval.positive ∧ (t.repeat_ = false → t.expiration_ = r.when_)) ∨
    ((∀ p t, q.heap p = some t → t.callback_ ≠ n) ∧ r.interval.positive = false ∧
      ∃ e now, r.when_ ≤ now ∧ q.history n = [.ran e n now, .deleted n]) := by
  by_cases hlive : ∃ p t, q.heap p = some t ∧ t.callback_ = n
  · obtain ⟨p, t, ht, hn⟩ := hlive
    obtain ⟨r', hr', hrest⟩ := h.known p t ht
    rw [hn, hr, Option.some.injEq] at hr'
    subst hr'
    exact .inl ⟨p, t, ht, hn, hrest⟩
  · have hnone : ∀ p t, q.heap p = some t → t.callback_ ≠ n :=
      fun p t ht hn => hlive ⟨p, t, ht, hn⟩
    exact .inr ⟨hnone, h.gone n r hr hnone⟩

theorem Accounts.oneShot {q : TimerQueue} (h : q.Accounts) (hinv : q.Inv) {n : Nat} {r : Request}
    (hr : q.requests[n]? = some r) (hinterval : r.interval.positive = false) : q.OneShot n r := by
  rcases h.live_or_gone hr with ⟨p, t, ht, hn, -, hrepeat, hwhen⟩ | ⟨hnone, -, hgone⟩
  · rw [hinterval] at hrepeat
    have hmem := hinv.registered.listed p t ht
    rw [entries, ← List.append_assoc] at hmem
    rcases List.mem_append.mp hmem with hmem | hmem
    · exact .inl ⟨p, t, ht, hn, hwhen hrepeat, hn ▸ h.waiting _ hmem t ht hrepeat⟩
    · obtain ⟨e, now, hle, hran⟩ := h.called _ hmem t ht hrepeat
      refine .inr (.inl ⟨fun hphase => ?_, p, t, e, now, ht, hn, hwhen hrepeat ▸ hle, hn ▸ hran⟩)
      rw [hphase] at hmem
      cases hmem
  · exact .inr (.inr ⟨hnone, hgone⟩)

theorem Accounts.repeating {q : TimerQueue} (h : q.Accounts) {n : Nat} {r : Request}
    (hr : q.requests[n]? = some r) (hinterval : r.interval.positive = true) : q.Repeating n r := by
  rcases h.live_or_gone hr with ⟨p, t, ht, hn, hsame, hrepeat, -⟩ | ⟨-, hfalse, -⟩
  · exact ⟨p, t, ht, hn, hrepeat.trans hinterval, hsame⟩
  · rw [hinterval] at hfalse
    cases hfalse

/-- What one call of `handleRead` runs. -/
theorem Inv.readsDue {q : TimerQueue} (h : q.Inv) (hphase : q.phase = .outside) (now : Int) :
    q.ReadsDue now := by
  have hs : Steps q (.handleRead now) (q.beginRead now) := .handleRead hphase
  have hinv := h.step hs
  have hstart : (q.beginRead now).Reading now (expiredOf q.timers_ now)
      (unexpiredOf q.timers_ now) (runsOf q.log) := by
    refine ⟨fun e he => he, fun now' called todo hcalling => ?_,
      fun hnot => absurd rfl (hnot now [] (expiredOf q.timers_ now))⟩
    cases hcalling
    exact ⟨rfl, rfl, (List.append_nil _).symm⟩
  constructor
  case runs =>
    intro as t hrun has hout
    obtain ⟨q₁, -, hstep, hrest⟩ := hrun.head
    cases hstep
    -- the invariant of the call, carried along its steps up to the return
    have hreading := Machine.invariant_reaches_along
      (I := fun u => u.Inv ∧ u.Reading now (expiredOf q.timers_ now) (unexpiredOf q.timers_ now)
        (runsOf q.log)) ⟨hinv, hstart⟩ (fun u a u' hu ha hc hstep' =>
        have hsteps := hu.1.steps_of_step ha hstep'
        ⟨hu.1.step hsteps, hu.2.step hu.1 hsteps hc⟩) (hrest.along has)
    refine ⟨?_, fun e he hlt => ?_⟩
    · rw [← expiredOf_eq h.ascending h.below_timers]
      exact hreading.2.ran (by simp [hout])
    · exact hreading.2.kept_mem e
        ((mem_unexpiredOf h.ascending h.below_timers now e).mpr ⟨he, hlt⟩)
  case returns =>
    have hcalling : (q.beginRead now).phase = .calling now [] (expiredOf q.timers_ now) := rfl
    obtain ⟨as, t, hrun, hout, has⟩ := hinv.calls_return hcalling
    exact ⟨as, t, Machine.Reaches.cons (decide_eq_true hphase) rfl hrun, has, hout⟩

/-- **Every timer runs when it is due.** In every run no deleted timer is touched. Outside
    `handleRead` every timer is in `timers_` exactly once, under its expiration. Each `handleRead`
    runs exactly the timers that were due, in the order of their expirations. A one-shot timer is
    run at most once, not before its time, and deleted once afterwards; a repeating timer is never
    dropped. -/
theorem timerQueue_runs_due_timers {as : List Act} {q : TimerQueue}
    (h : machine.Reaches new as q) :
    machine.Safe q ∧ (q.phase = .outside → q.InPlace ∧ ∀ now, q.ReadsDue now) ∧
      q.timers_.Pairwise (fun a b => a.1 ≤ b.1) ∧
      ∀ n r, q.requests[n]? = some r →
        if r.interval.positive then q.Repeating n r else q.OneShot n r := by
  obtain ⟨hinv, haccounts⟩ := Machine.invariant_reaches machine_invariant h
  refine ⟨Machine.invariant_safe machine_invariant h,
    fun hphase => ⟨hinv.inPlace hphase, hinv.readsDue hphase⟩, ?_, fun n r hr => ?_⟩
  · refine hinv.ascending.imp fun {a b} hab => ?_
    rw [Entry.lt_iff] at hab
    omega
  · cases hinterval : r.interval.positive with
    | true =>
      rw [if_pos rfl]
      exact haccounts.repeating hr hinterval
    | false =>
      rw [if_neg (by simp)]
      exact haccounts.oneShot hinv hr hinterval

/-- A one-shot timer at 100 and a repeating one at 50. Both are due at 120; the callback of the
    repeating one adds a timer for the past, which stays for the next `handleRead`. -/
def nestedRun : List Act :=
  [.addTimer 8 ⟨100, .zero⟩ 0, .addTimer 16 ⟨50, ⟨true, 10⟩⟩ 0, .expire, .handleRead 120,
    .runTimer, .addTimer 24 ⟨30, .zero⟩ 120, .runTimer, .beginReset, .resetTimer 125 126,
    .resetTimer 127 128, .endRead]

theorem nestedRun_runs_due_timers :
    ((machine.run new nestedRun).map fun q => (q.phase, q.timers_, q.history 0)) =
      some (.outside, [(30, 24), (135, 16)], [.ran (100, 8) 0 120, .deleted 0]) ∧
    ∀ q, machine.run new nestedRun = some q → q.InPlace ∧ ∀ now, q.ReadsDue now := by
  have hrun : ((machine.run new nestedRun).map fun q => (q.phase, q.timers_, q.history 0)) =
      some (.outside, [(30, 24), (135, 16)], [.ran (100, 8) 0 120, .deleted 0]) := by
    decide +kernel
  refine ⟨hrun, fun q hq => ?_⟩
  rw [hq, Option.map_some, Option.some.injEq, Prod.mk.injEq] at hrun
  exact (timerQueue_runs_due_timers (Machine.reaches_of_run hq)).2.1 hrun.1

end TimerQueue

end RainWebServer.Util
