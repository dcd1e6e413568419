import RainWebServer.Util.TimerQueueRuns
import Mathlib.Data.List.Chain

/-!
# TimerQueue: the Times of a Repeating Timer, and the End of All Timers

`reset` restarts a repeating timer from the clock that it reads there, not from the time at which
the timer was due. So a timer that repeats drifts: it may be late, and every delay is kept. What it
never does is run early, if the clock does not go back. The second part of the module is
`~TimerQueue`.

## Main results

- `repeating_on_schedule` : two runs of a repeating timer are at least its interval apart
- `destroy_deletes_once` : `~TimerQueue` deletes what is left, and every timer is deleted once
-/

namespace RainWebServer.Util

open RainWebServer.Lib

/-- When the event was a run of the n-th timer. -/
def Event.runTime (n : Nat) : Event → Option Int
  | .ran _ callback now => if callback = n then some now else none
  | .deleted _ => none

namespace TimerQueue

/-! ## §1 Schedules -/

/-- The first time is not before `when`, and the others follow at least an interval apart. -/
def OnSchedule (r : Request) (times : List Int) : Prop :=
  (∀ first ∈ times.head?, r.when_ ≤ first) ∧
    times.IsChain (fun a b => a + r.interval.micros ≤ b)

/-- One more time. -/
theorem onSchedule_concat {r : Request} {times : List Int} {x : Int} :
    OnSchedule r (times ++ [x]) ↔ OnSchedule r times ∧ (times = [] → r.when_ ≤ x) ∧
      ∀ last ∈ times.getLast?, last + r.interval.micros ≤ x := by
  simp only [OnSchedule, List.isChain_append]
  cases times with
  | nil => simp
  | cons first rest => simp [and_assoc]

/-- A time may be late. -/
theorem OnSchedule.later {r : Request} {times : List Int} {x y : Int}
    (h : OnSchedule r (times ++ [x])) (hle : x ≤ y) : OnSchedule r (times ++ [y]) := by
  rw [onSchedule_concat] at h ⊢
  obtain ⟨hbefore, hfirst, hlast⟩ := h
  exact ⟨hbefore, fun hnil => Int.le_trans (hfirst hnil) hle,
    fun last hmem => Int.le_trans (hlast last hmem) hle⟩

/-- The time with the number `k` is at least `k` intervals after `when`. -/
theorem OnSchedule.le_getElem {r : Request} {times : List Int} (h : OnSchedule r times) {k : Nat}
    {x : Int} (hx : times[k]? = some x) : r.when_ + k * r.interval.micros ≤ x := by
  induction k generalizing x with
  | zero =>
    have hfirst := h.1 x (by rw [List.head?_eq_getElem?, hx]; rfl)
    simpa using hfirst
  | succ k ih =>
    obtain ⟨hlt, rfl⟩ := List.getElem?_eq_some_iff.mp hx
    have hbefore := ih (List.getElem?_eq_getElem (Nat.lt_of_succ_lt hlt))
    have hstep := List.isChain_iff_getElem.mp h.2 k hlt
    rw [Int.natCast_succ, Int.add_mul, Int.one_mul]
    omega

/-! ## §2 Clocks and runs -/

/-- The readings of the clock, in order. -/
def Act.readings : Act → List Int
  | .addTimer _ _ now | .handleRead now => [now]
  | .resetTimer restartNow now => [restartNow, now]
  | _ => []

/-- The clock does not go back. -/
def Forward (as : List Act) : Prop := (as.flatMap Act.readings).Pairwise (· ≤ ·)

/-- The times at which the timer of the n-th call of `addTimer` was run. -/
def runTimes (q : TimerQueue) (n : Nat) : List Int := q.log.filterMap (Event.runTime n)

theorem runTimes_append {q q' : TimerQueue} {ev : Event} (hlog : q'.log = q.log ++ [ev]) (n : Nat) :
    q'.runTimes n = q.runTimes n ++ (ev.runTime n).toList := by
  rw [runTimes, hlog, List.filterMap_append, runTimes]
  cases h : ev.runTime n <;> simp [h]

/-- Of a timer that has not been added nothing was run. -/
theorem Accounts.runTimes_eq_nil {q : TimerQueue} (h : q.Accounts) {n : Nat}
    (hn : q.requests.length ≤ n) : q.runTimes n = [] := by
  rw [runTimes, List.filterMap_eq_nil_iff]
  intro ev hev
  have hlt := h.logged ev hev
  cases ev with
  | ran e callback now => exact if_neg (fun heq => by simp only [Event.callback] at hlt; omega)
  | deleted callback => rfl

/-! ## §3 The invariant -/

/-- The repeating timers, the times at which they ran and the readings of the clock so far. A timer
    that waits may be run at its expiration; one that was run in this batch will be restarted. -/
structure Scheduled (seen : List Int) (q : TimerQueue) : Prop where
  log : ∀ e n now, Event.ran e n now ∈ q.log → now ∈ seen
  phase : ∀ now called todo, q.phase = .calling now called todo → now ∈ seen
  waiting : ∀ e ∈ q.timers_ ++ q.phase.todo, ∀ t r, q.heap e.2 = some t → t.repeat_ = true →
    q.requests[t.callback_]? = some r →
    OnSchedule r (q.runTimes t.callback_ ++ [t.expiration_])
  called : ∀ e ∈ q.phase.called, ∀ t r, q.heap e.2 = some t → t.repeat_ = true →
    q.requests[t.callback_]? = some r →
    OnSchedule r (q.runTimes t.callback_) ∧ q.runTimes t.callback_ ≠ []

theorem scheduled_new : Scheduled [] new := by
  refine ⟨?_, ?_, ?_, ?_⟩
  · intro e n now hmem
    cases hmem
  · intro now called todo hphase
    cases hphase
  · intro e he
    cases he
  · intro e he
    cases he

/-- An action that touches neither the timers nor the log, and moves no entry to another place. -/
theorem Scheduled.move {seen : List Int} {q q' : TimerQueue} (h : Scheduled seen q) (a : Act)
    (hheap : q'.heap = q.heap) (hlog : q'.log = q.log) (hrequests : q'.requests = q.requests)
    (hphase : ∀ now called todo, q'.phase = .calling now called todo → now ∈ seen ++ a.readings)
    (hwaiting : ∀ e ∈ q'.timers_ ++ q'.phase.todo, e ∈ q.timers_ ++ q.phase.todo)
    (hcalled : ∀ e ∈ q'.phase.called, e ∈ q.phase.called) :
    Scheduled (seen ++ a.readings) q' := by
  have htimes : ∀ n, q'.runTimes n = q.runTimes n := by
    intro n
    rw [runTimes, hlog, runTimes]
  refine ⟨?_, hphase, ?_, ?_⟩
  · intro e n now hmem
    exact List.mem_append_left _ (h.log e n now (hlog ▸ hmem))
  · intro e he t r ht hrepeat hr
    rw [htimes]
    exact h.waiting e (hwaiting e he) t r (hheap ▸ ht) hrepeat (hrequests ▸ hr)
  · intro e he t r ht hrepeat hr
    rw [htimes]
    exact h.called e (hcalled e he) t r (hheap ▸ ht) hrepeat (hrequests ▸ hr)

/-- A new timer is first run at its `when`. -/
theorem Scheduled.added {seen : List Int} {q : TimerQueue} (h : Scheduled seen q) (hinv : q.Inv)
    (haccounts : q.Accounts) {p : Nat} (hfree : q.heap p = none) (request : Request) (now : Int) :
    Scheduled (seen ++ [now]) (q.added p request now) := by
  have hnot := hinv.not_mem_of_free hfree request.when_
  -- a timer is the new one, at `p`, or it was there, at another address and for an earlier call
  have hold : ∀ (e : Entry) t r, e.2 ≠ p → (q.added p request now).heap e.2 = some t →
      (q.added p request now).requests[t.callback_]? = some r →
      q.heap e.2 = some t ∧ q.requests[t.callback_]? = some r := by
    intro e t r hne ht hr
    have ht' : q.heap e.2 = some t := (Function.update_of_ne hne _ _).symm.trans ht
    refine ⟨ht', ?_⟩
    obtain ⟨r', hr', -⟩ := haccounts.known e.2 t ht'
    have hlt := (List.getElem?_eq_some_iff.mp hr').1
    exact (List.getElem?_append_left hlt).symm.trans hr
  have hne : ∀ e ∈ q.entries, e.2 ≠ p := by
    intro e he heq
    obtain ⟨t, ht, -⟩ := hinv.keyed he
    rw [heq, hfree] at ht
    cases ht
  refine ⟨?_, ?_, ?_, ?_⟩
  · exact fun e n now' hmem => List.mem_append_left _ (h.log e n now' hmem)
  · exact fun now' called todo hphase => List.mem_append_left _ (h.phase now' called todo hphase)
  · intro e he t r ht hrepeat hr
    by_cases hp : e.2 = p
    · rw [hp] at ht
      have hself : (q.added p request now).heap p =
          some (Timer.new q.requests.length request.when_ request.interval) :=
        Function.update_self _ _ _
      obtain rfl := Option.some.inj (hself.symm.trans ht)
      have hnil : (q.added p request now).runTimes q.requests.length = [] :=
        haccounts.runTimes_eq_nil (Nat.le_refl _)
      have hr' : (q.requests ++ [request])[q.requests.length]? = some r := hr
      rw [List.getElem?_concat_length, Option.some.injEq] at hr'
      subst hr'
      show OnSchedule request ((q.added p request now).runTimes q.requests.length ++ _)
      rw [hnil]
      exact ⟨fun first hfirst => by cases hfirst; exact Int.le_refl _, List.isChain_singleton _⟩
    · have he' : e ∈ q.timers_ ++ q.phase.todo := by
        rcases List.mem_append.mp he with hmem | hmem
        · rcases List.mem_cons.mp ((insertSorted_perm Entry.strictTotal hnot).mem_iff.mp hmem)
            with rfl | hmem
          · exact absurd rfl hp
          · exact List.mem_append_left _ hmem
        · exact List.mem_append_right _ hmem
      obtain ⟨ht', hr'⟩ := hold e t r hp ht hr
      exact h.waiting e he' t r ht' hrepeat hr'
  · intro e he t r ht hrepeat hr
    have hmem : e ∈ q.entries := List.mem_append_right _ (List.mem_append_right _ he)
    obtain ⟨ht', hr'⟩ := hold e t r (hne e hmem) ht hr
    exact h.called e he t r ht' hrepeat hr'

/-- A timer is run at or after its expiration. -/
theorem Scheduled.ran {seen : List Int} {q : TimerQueue} (h : Scheduled seen q) (hinv : q.Inv)
    (haccounts : q.Accounts) {now : Int} {called todo : List Entry} {e : Entry} {t : Timer}
    (hphase : q.phase = .calling now called (e :: todo)) (ht : q.heap e.2 = some t) :
    Scheduled seen { q with
      log := q.log ++ [.ran e t.callback_ now]
      phase := .calling now (called ++ [e]) todo } := by
  have hentries : q.entries = q.timers_ ++ e :: (todo ++ called) := by
    rw [entries, hphase]
    rfl
  have hnodup := hinv.registered.nodup
  rw [hentries, List.map_append, List.map_cons] at hnodup
  -- every other entry is that of another timer
  have hne : ∀ e' ∈ q.timers_ ++ (todo ++ called), ∀ t', q.heap e'.2 = some t' →
      t'.callback_ ≠ t.callback_ := by
    intro e' he' t' ht' heq
    have hsame := haccounts.distinct e'.2 e.2 t' t ht' ht heq
    have hmiddle := List.nodup_middle.mp hnodup
    refine (List.nodup_cons.mp hmiddle).1 ?_
    rw [← List.map_append]
    exact List.mem_map.mpr ⟨e', he', hsame⟩
  have htimes : ∀ n, TimerQueue.runTimes { q with
      log := q.log ++ [.ran e t.callback_ now]
      phase := .calling now (called ++ [e]) todo } n =
        q.runTimes n ++ if t.callback_ = n then [now] else [] := by
    intro n
    rw [runTimes_append (q := q) rfl]
    simp only [Event.runTime]
    split <;> rfl
  have hother : ∀ n, n ≠ t.callback_ → TimerQueue.runTimes { q with
      log := q.log ++ [.ran e t.callback_ now]
      phase := .calling now (called ++ [e]) todo } n = q.runTimes n := by
    intro n hn
    rw [htimes, if_neg (Ne.symm hn), List.append_nil]
  have hnow : now ∈ seen := h.phase now called (e :: todo) hphase
  have hwaits : e ∈ q.timers_ ++ q.phase.todo := by
    rw [hphase]
    exact List.mem_append_right _ List.mem_cons_self
  refine ⟨?_, ?_, ?_, ?_⟩
  · intro e' n now' hmem
    rcases List.mem_append.mp hmem with hmem | hmem
    · exact h.log e' n now' hmem
    · cases List.mem_singleton.mp hmem
      exact hnow
  · intro now' called' todo' hphase'
    cases hphase'
    exact hnow
  · intro e' he' t' r ht' hrepeat hr
    have hmem : e' ∈ q.timers_ ++ (todo ++ called) ∧ e' ∈ q.timers_ ++ q.phase.todo := by
      rw [hphase]
      rcases List.mem_append.mp he' with hmem | hmem
      · exact ⟨List.mem_append_left _ hmem, List.mem_append_left _ hmem⟩
      · exact ⟨List.mem_append_right _ (List.mem_append_left _ hmem),
          List.mem_append_right _ (List.mem_cons_of_mem _ hmem)⟩
    rw [hother _ (hne e' hmem.1 t' ht')]
    exact h.waiting e' hmem.2 t' r ht' hrepeat hr
  · intro e' he' t' r ht' hrepeat hr
    rcases List.mem_append.mp he' with hmem | hmem
    · rw [hother _ (hne e' (List.mem_append_right _ (List.mem_append_right _ hmem)) t' ht')]
      refine h.called e' ?_ t' r ht' hrepeat hr
      rw [hphase]
      exact hmem
    · -- the timer that was run: its expiration is over
      rw [List.mem_singleton.mp hmem] at ht'
      obtain rfl : t = t' := Option.some.inj (ht.symm.trans ht')
      have hmem : e ∈ q.entries := hentries ▸ List.mem_append_right _ List.mem_cons_self
      obtain ⟨t'', ht'', hkey⟩ := hinv.keyed hmem
      obtain rfl : t = t'' := Option.some.inj (ht.symm.trans ht'')
      have hdue := hinv.due now called (e :: todo) hphase e List.mem_cons_self
      rw [htimes, if_pos rfl]
      exact ⟨(h.waiting e hwaits t r ht hrepeat hr).later (hkey ▸ hdue), by simp⟩

/-- The timers other than that of the first entry, when `reset` has dealt with it. -/
theorem Scheduled.rest {seen : List Int} {q : TimerQueue} (h : Scheduled seen q) (q' : TimerQueue)
    {e : Entry} {rest : List Entry} (hphase : q.phase = .resetting (e :: rest))
    (hphase' : q'.phase = .resetting rest) {readings : List Int}
    (hlog : ∀ e' n now, Event.ran e' n now ∈ q'.log → Event.ran e' n now ∈ q.log)
    (htimes : ∀ n, q'.runTimes n = q.runTimes n) (hrequests : q'.requests = q.requests)
    (hheap : ∀ p t, p ≠ e.2 → q'.heap p = some t → q.heap p = some t)
    (htimers : ∀ e' ∈ q'.timers_, e'.2 ≠ e.2 → e' ∈ q.timers_)
    (hrest : ∀ e' ∈ rest, e'.2 ≠ e.2)
    (hself : ∀ e' ∈ q'.timers_, ∀ t r, e'.2 = e.2 → q'.heap e.2 = some t → t.repeat_ = true →
      q.requests[t.callback_]? = some r →
      OnSchedule r (q.runTimes t.callback_ ++ [t.expiration_])) :
    Scheduled (seen ++ readings) q' := by
  refine ⟨?_, ?_, ?_, ?_⟩
  · exact fun e' n now hmem => List.mem_append_left _ (h.log e' n now (hlog e' n now hmem))
  · intro now called todo hcalling
    rw [hphase'] at hcalling
    cases hcalling
  · intro e' he' t r ht hrepeat hr
    have hmem : e' ∈ q'.timers_ := by
      rw [hphase'] at he'
      simpa [Phase.todo] using he'
    rw [htimes]
    by_cases hp : e'.2 = e.2
    · exact hself e' hmem t r hp (hp ▸ ht) hrepeat (hrequests ▸ hr)
    · exact h.waiting e' (List.mem_append_left _ (htimers e' hmem hp)) t r (hheap _ t hp ht)
        hrepeat (hrequests ▸ hr)
  · intro e' he' t r ht hrepeat hr
    have hmem : e' ∈ rest := by
      rw [hphase'] at he'
      exact he'
    rw [htimes]
    refine h.called e' ?_ t r (hheap _ t (hrest e' hmem) ht) hrepeat (hrequests ▸ hr)
    rw [hphase]
    exact List.mem_cons_of_mem _ hmem

/-- **One action** keeps the schedules, if it does not read an earlier time than those before. -/
theorem Scheduled.step {seen : List Int} {q q' : TimerQueue} {a : Act} (h : Scheduled seen q)
    (hinv : q.Inv) (haccounts : q.Accounts) (hs : Steps q a q')
    (hforward : ∀ x ∈ seen, ∀ y ∈ a.readings, x ≤ y) : Scheduled (seen ++ a.readings) q' := by
  cases hs with
  | addTimer hphase hfree hp => exact h.added hinv haccounts hfree _ _
  | expire harmed =>
    exact h.move .expire rfl rfl rfl
      (fun now called todo hc => List.mem_append_left _ (h.phase now called todo hc))
      (fun e he => he) (fun e he => he)
  | @handleRead now hphase =>
    refine h.move (.handleRead now) rfl rfl rfl (fun now' called todo hc => ?_) (fun e he => ?_)
      (fun e he => by cases he)
    · cases hc
      exact List.mem_append_right _ List.mem_cons_self
    · refine List.mem_append_left _ ?_
      rw [← expiredOf_append_unexpiredOf q.timers_ now]
      rcases List.mem_append.mp he with hmem | hmem
      · exact List.mem_append_right _ hmem
      · exact List.mem_append_left _ hmem
  | runTimer hphase ht =>
    show Scheduled (seen ++ []) _
    rw [List.append_nil]
    exact h.ran hinv haccounts hphase ht
  | @beginReset now called hphase =>
    refine h.move .beginReset rfl rfl rfl (fun now' called' todo hc => by cases hc)
      (fun e he => ?_) (fun e he => ?_)
    · rcases List.mem_append.mp he with hmem | hmem
      · exact List.mem_append_left _ hmem
      · cases hmem
    · rw [hphase]
      exact he
  | @restart e rest t restartNow now hphase ht hrepeat =>
    have hnodup := (List.nodup_cons.mp (hinv.registered_rest hphase).nodup).1
    have hbatch : e ∈ q.phase.todo ++ q.phase.called := by
      rw [hphase]
      exact List.mem_cons_self
    have hnot := hinv.not_mem_of_batch hbatch (t.restart restartNow).expiration_
    refine h.rest { (q.restarted e.2 t restartNow).rearmed now with phase := .resetting rest }
      hphase rfl ?_ ?_ ?_ ?_ ?_ ?_ ?_
    · intro e' n now' hmem
      simpa [TimerQueue.restarted] using hmem
    · intro n
      simp [runTimes, TimerQueue.restarted]
    · simp [TimerQueue.restarted]
    · intro p t' hp ht'
      rw [← ht']
      simp [TimerQueue.restarted, Function.update_of_ne hp]
    · intro e' hmem hp
      have hmem' : e' ∈ (q.restarted e.2 t restartNow).timers_ := by simpa using hmem
      rcases List.mem_cons.mp ((insertSorted_perm Entry.strictTotal hnot).mem_iff.mp hmem')
        with rfl | hmem'
      · exact absurd rfl hp
      · exact hmem'
    · intro e' hmem heq
      refine hnodup ?_
      rw [List.map_append]
      exact List.mem_append_right _ (List.mem_map.mpr ⟨e', hmem, heq⟩)
    · intro e' _ t' r _ ht' _ hr
      have hself : (q.restarted e.2 t restartNow).heap e.2 = some (t.restart restartNow) :=
        Function.update_self _ _ _
      have ht'' : (q.restarted e.2 t restartNow).heap e.2 = some t' := by simpa using ht'
      obtain rfl := Option.some.inj (hself.symm.trans ht'')
      -- it is restarted from a time that is not before its last run
      have hcalled : e ∈ q.phase.called := by
        rw [hphase]
        exact List.mem_cons_self
      obtain ⟨hon, hran⟩ := h.called e hcalled t r ht hrepeat hr
      obtain ⟨r', hr', hinterval, -⟩ := haccounts.known e.2 t ht
      obtain rfl : r' = r := Option.some.inj (hr'.symm.trans hr)
      refine onSchedule_concat.mpr ⟨hon, fun hnil => absurd hnil hran, fun last hlast => ?_⟩
      have hmem : last ∈ q.runTimes t.callback_ := List.mem_of_getLast? hlast
      have hseen : last ∈ seen := by
        obtain ⟨ev, hev, heq⟩ := List.mem_filterMap.mp hmem
        cases ev with
        | ran e' n now' =>
          simp only [Event.runTime] at heq
          split at heq
          · cases heq
            exact h.log e' n _ hev
          · cases heq
        | deleted n => cases heq
      have hle := hforward last hseen restartNow List.mem_cons_self
      have hexpiration : (t.restart restartNow).expiration_ = restartNow + t.interval_.micros :=
        if_pos hrepeat
      rw [hexpiration, hinterval]
      omega
  | @delete e rest t restartNow now hphase ht hrepeat =>
    have hnodup := (List.nodup_cons.mp (hinv.registered_rest hphase).nodup).1
    refine h.rest { (q.dropped e.2 t).rearmed now with phase := .resetting rest } hphase rfl
      ?_ ?_ ?_ ?_ ?_ ?_ ?_
    · intro e' n now' hmem
      simpa [TimerQueue.dropped] using hmem
    · intro n
      simp [runTimes, TimerQueue.dropped, Event.runTime]
    · simp [TimerQueue.dropped]
    · intro p t' hp ht'
      rw [← ht']
      simp [TimerQueue.dropped, Function.update_of_ne hp]
    · intro e' hmem _
      simpa [TimerQueue.dropped] using hmem
    · intro e' hmem heq
      refine hnodup ?_
      rw [List.map_append]
      exact List.mem_append_right _ (List.mem_map.mpr ⟨e', hmem, heq⟩)
    · intro e' _ t' r _ ht'
      have hnone : (q.dropped e.2 t).heap e.2 = none := Function.update_self _ _ _
      have ht'' : (q.dropped e.2 t).heap e.2 = some t' := by simpa using ht'
      rw [hnone] at ht''
      cases ht''
  | endRead hphase =>
    refine h.move .endRead rfl rfl rfl (fun now' called' todo hc => by cases hc)
      (fun e he => ?_) (fun e he => by cases he)
    rcases List.mem_append.mp he with hmem | hmem
    · exact List.mem_append_left _ hmem
    · cases hmem

/-! ## §4 Every run -/

theorem scheduled_reaches {as : List Act} {q : TimerQueue} (h : machine.Reaches new as q)
    (hforward : Forward as) : Scheduled (as.flatMap Act.readings) q := by
  induction h with
  | refl => exact scheduled_new
  | @snoc as q q' a hrun he hs ih =>
    obtain ⟨hinv, haccounts⟩ := Machine.invariant_reaches machine_invariant hrun
    rw [Forward, List.flatMap_append, List.pairwise_append] at hforward
    have hlast : [a].flatMap Act.readings = a.readings := List.flatMap_singleton _ _
    rw [List.flatMap_append, hlast]
    refine (ih hforward.1).step hinv haccounts (hinv.steps_of_step he hs) fun x hx y hy => ?_
    exact hforward.2.2 x hx y (hlast ▸ hy)

/-- **A repeating timer never runs early.** In every run in which the clock does not go back, its
    first run is not before `when`, its runs are at least an interval apart, and the run with the
    number `k` is at least `k` intervals after `when`. The interval counts as `addTime` truncates
    it, in whole microseconds. -/
theorem repeating_on_schedule {as : List Act} {q : TimerQueue} (h : machine.Reaches new as q)
    (hforward : Forward as) {n : Nat} {r : Request} (hr : q.requests[n]? = some r)
    (hrepeat : r.interval.positive = true) :
    OnSchedule r (q.runTimes n) ∧
      ∀ (k : Nat) (now : Int), (q.runTimes n)[k]? = some now →
        r.when_ + k * r.interval.micros ≤ now := by
  obtain ⟨hinv, haccounts⟩ := Machine.invariant_reaches machine_invariant h
  have hscheduled := scheduled_reaches h hforward
  have hon : OnSchedule r (q.runTimes n) := by
    obtain ⟨p, t, ht, rfl, hrepeat', -⟩ := haccounts.repeating hr hrepeat
    have hmem := hinv.registered.listed p t ht
    rw [entries, ← List.append_assoc] at hmem
    rcases List.mem_append.mp hmem with hmem | hmem
    · exact (onSchedule_concat.mp (hscheduled.waiting _ hmem t r ht hrepeat' hr)).1
    · exact (hscheduled.called _ hmem t r ht hrepeat' hr).1
  exact ⟨hon, fun k now hk => hon.le_getElem hk⟩

/-- A timer for 50 that repeats every 10: it is run at 60, restarted at 65 and run again at 80. -/
def driftingRun : List Act :=
  [.addTimer 8 ⟨50, ⟨true, 10⟩⟩ 0, .expire, .handleRead 60, .runTimer, .beginReset,
    .resetTimer 65 66, .endRead, .expire, .handleRead 80, .runTimer]

theorem driftingRun_on_schedule :
    ∃ q, machine.Reaches new driftingRun q ∧ q.runTimes 0 = [60, 80] ∧
      OnSchedule ⟨50, ⟨true, 10⟩⟩ (q.runTimes 0) := by
  have hrun : (machine.run new driftingRun).map (fun q => (q.runTimes 0, q.requests)) =
      some ([60, 80], [⟨50, ⟨true, 10⟩⟩]) := by decide +kernel
  obtain ⟨q, hq, heq⟩ := Option.map_eq_some_iff.mp hrun
  obtain ⟨htimes, hrequests⟩ := Prod.mk.inj heq
  have hreach := Machine.reaches_of_run hq
  have hr : q.requests[0]? = some ⟨50, ⟨true, 10⟩⟩ := by rw [hrequests]; rfl
  have hforward : Forward driftingRun := by
    unfold Forward
    decide
  exact ⟨q, hreach, htimes, (repeating_on_schedule hreach hforward hr rfl).1⟩

/-! ## §5 The destructor -/

/-- `delete timer`. -/
def deleteTimer (q : TimerQueue) (timer : Nat) : Option TimerQueue := do
  let t ← q.heap timer
  some { q with
    heap := Function.update q.heap timer none
    log := q.log ++ [.deleted t.callback_] }

/-- The loop of `~TimerQueue`. -/
def deleteTimers (q : TimerQueue) : List Entry → Option TimerQueue
  | [] => some q
  | timer :: rest => do
    let q ← q.deleteTimer timer.2
    q.deleteTimers rest

/-- `~TimerQueue`. -/
def destroy (q : TimerQueue) : Option TimerQueue :=
  ({ q with timerfd := .disarmed } : TimerQueue).deleteTimers q.timers_

/-- How often the timer of the n-th call of `addTimer` was deleted. -/
def timesDeleted (q : TimerQueue) (n : Nat) : Nat := q.log.countP (fun ev => ev = .deleted n)

/-- Some timer in memory is that of the n-th call of `addTimer`. -/
def Live (q : TimerQueue) (n : Nat) : Prop := ∃ p t, q.heap p = some t ∧ t.callback_ = n

/-- A timer in memory was not deleted, and any other was deleted once. -/
structure DeletedOnce (q : TimerQueue) : Prop where
  distinct : ∀ p p' t t', q.heap p = some t → q.heap p' = some t' →
    t.callback_ = t'.callback_ → p = p'
  live : ∀ n, q.Live n → q.timesDeleted n = 0
  gone : ∀ n, n < q.requests.length → ¬q.Live n → q.timesDeleted n = 1

theorem timesDeleted_append {q q' : TimerQueue} {ev : Event} (hlog : q'.log = q.log ++ [ev])
    (n : Nat) : q'.timesDeleted n = q.timesDeleted n + if ev = .deleted n then 1 else 0 := by
  rw [timesDeleted, hlog, List.countP_append, List.countP_singleton, timesDeleted]
  simp

/-- **One timer less.** -/
theorem DeletedOnce.dropped {q : TimerQueue} (h : q.DeletedOnce) {p : Nat} {t : Timer}
    (ht : q.heap p = some t) : (q.dropped p t).DeletedOnce := by
  have hheap : ∀ p' t', (q.dropped p t).heap p' = some t' → p' ≠ p ∧ q.heap p' = some t' := by
    intro p' t' ht'
    rcases update_eq_some ht' with ⟨-, hnone⟩ | hother
    · cases hnone
    · exact hother
  -- the timers of the other calls are where they were
  have hlive : ∀ n, n ≠ t.callback_ → ((q.dropped p t).Live n ↔ q.Live n) := by
    intro n hn
    constructor
    · rintro ⟨p', t', ht', hcallback⟩
      exact ⟨p', t', (hheap p' t' ht').2, hcallback⟩
    · rintro ⟨p', t', ht', rfl⟩
      have hp : p' ≠ p := by
        rintro rfl
        exact hn (by rw [Option.some.inj (ht'.symm.trans ht)])
      exact ⟨p', t', (Function.update_of_ne hp _ _).trans ht', rfl⟩
  have hcount : ∀ n, (q.dropped p t).timesDeleted n =
      q.timesDeleted n + if Event.deleted t.callback_ = .deleted n then 1 else 0 :=
    timesDeleted_append rfl
  refine ⟨?_, ?_, ?_⟩
  · intro p₁ p₂ t₁ t₂ ht₁ ht₂
    exact h.distinct p₁ p₂ t₁ t₂ (hheap p₁ t₁ ht₁).2 (hheap p₂ t₂ ht₂).2
  · rintro n ⟨p', t', ht', rfl⟩
    obtain ⟨hp, ht''⟩ := hheap p' t' ht'
    have hne : t'.callback_ ≠ t.callback_ := fun heq => hp (h.distinct p' p t' t ht'' ht heq)
    rw [hcount, h.live _ ⟨p', t', ht'', rfl⟩, if_neg]
    simpa using Ne.symm hne
  · intro n hn hgone
    by_cases hself : n = t.callback_
    · rw [hcount, hself, h.live _ ⟨p, t, ht, rfl⟩, if_pos rfl]
    · rw [hcount, h.gone n hn (fun hq => hgone ((hlive n hself).mpr hq)), if_neg]
      simpa using Ne.symm hself

/-- The loop deletes what is registered. -/
theorem deleteTimers_spec {entries : List Entry} {q : TimerQueue} (h : q.DeletedOnce)
    (hregistered : Registered Timer.expiration_ q.heap entries) :
    ∃ q', q.deleteTimers entries = some q' ∧ q'.requests = q.requests ∧ q'.DeletedOnce ∧
      ∀ p, q'.heap p = none := by
  induction entries generalizing q with
  | nil =>
    refine ⟨q, rfl, rfl, h, fun p => ?_⟩
    by_contra hsome
    obtain ⟨t, ht⟩ := Option.ne_none_iff_exists'.mp hsome
    cases hregistered.listed p t ht
  | cons e rest ih =>
    obtain ⟨t, ht, -⟩ := hregistered.keyed e List.mem_cons_self
    obtain ⟨q', hdelete, hrequests, hrest⟩ := ih (h.dropped ht) hregistered.delete
    have hstep : q.deleteTimer e.2 = some (q.dropped e.2 t) := by
      simp only [deleteTimer, ht, Option.bind_eq_bind, Option.bind_some]
      rfl
    refine ⟨q', ?_, hrequests, hrest⟩
    rw [deleteTimers, hstep]
    exact hdelete

/-- An action that deletes nothing, and leaves each timer with its call. -/
theorem DeletedOnce.keeps {q q' : TimerQueue} (h : q.DeletedOnce) (haccounts : q'.Accounts)
    (hrequests : q'.requests = q.requests) (hlive : ∀ n, q'.Live n ↔ q.Live n)
    (hcount : ∀ n, q'.timesDeleted n = q.timesDeleted n) : q'.DeletedOnce := by
  refine ⟨haccounts.distinct, fun n hn => ?_, fun n hn hgone => ?_⟩
  · rw [hcount]
    exact h.live n ((hlive n).mp hn)
  · rw [hcount]
    exact h.gone n (hrequests ▸ hn) fun hq => hgone ((hlive n).mpr hq)

/-- An action deletes a timer at most once. -/
theorem DeletedOnce.step {q q' : TimerQueue} {a : Act} (h : q.DeletedOnce) (hinv : q.Inv)
    (haccounts : q.Accounts) (hs : Steps q a q') : q'.DeletedOnce := by
  have haccounts' := haccounts.step hinv hs
  cases hs with
  | @addTimer p request now hphase hfree hp =>
    have hself : (q.added p request now).heap p =
        some (Timer.new q.requests.length request.when_ request.interval) :=
      Function.update_self _ _ _
    have hlive : ∀ n, n ≠ q.requests.length → ((q.added p request now).Live n ↔ q.Live n) := by
      intro n hn
      constructor
      · rintro ⟨p', t, ht, rfl⟩
        rcases update_eq_some ht with ⟨-, hnew⟩ | ⟨-, ht'⟩
        · cases hnew
          exact absurd rfl hn
        · exact ⟨p', t, ht', rfl⟩
      · rintro ⟨p', t, ht, rfl⟩
        have hne : p' ≠ p := by
          rintro rfl
          rw [hfree] at ht
          cases ht
        exact ⟨p', t, (Function.update_of_ne hne _ _).trans ht, rfl⟩
    refine ⟨haccounts'.distinct, fun n hn => ?_, fun n hn hgone => ?_⟩
    · by_cases hlast : n = q.requests.length
      · -- nothing has happened to the new timer
        refine List.countP_eq_zero.mpr fun ev hev => ?_
        have hlt := haccounts.logged ev hev
        rw [decide_eq_true_eq]
        rintro rfl
        simp only [Event.callback] at hlt
        omega
      · exact h.live n ((hlive n hlast).mp hn)
    · by_cases hlast : n = q.requests.length
      · exact absurd ⟨p, _, hself, hlast.symm⟩ hgone
      · have hlength : (q.added p request now).requests.length = q.requests.length + 1 :=
          List.length_append
        exact h.gone n (by omega) fun hq => hgone ((hlive n hlast).mpr hq)
  | expire harmed => exact h.keeps haccounts' rfl (fun n => Iff.rfl) (fun n => rfl)
  | handleRead hphase => exact h.keeps haccounts' rfl (fun n => Iff.rfl) (fun n => rfl)
  | beginReset hphase => exact h.keeps haccounts' rfl (fun n => Iff.rfl) (fun n => rfl)
  | endRead hphase => exact h.keeps haccounts' rfl (fun n => Iff.rfl) (fun n => rfl)
  | runTimer hphase ht =>
    refine h.keeps haccounts' rfl (fun n => Iff.rfl) (fun n => ?_)
    rw [timesDeleted_append (q := q) rfl, if_neg (fun heq => by cases heq), Nat.add_zero]
  | @restart e rest t restartNow now hphase ht hrepeat =>
    have hheap : ∀ p, (q.restarted e.2 t restartNow).heap p =
        if p = e.2 then some (t.restart restartNow) else q.heap p :=
      fun p => Function.update_apply _ _ _ _
    refine h.keeps haccounts' (by simp [TimerQueue.restarted]) (fun n => ?_)
      (fun n => by simp [timesDeleted, TimerQueue.restarted])
    -- `restart` does not change whose timer it is
    show (∃ p t', ((q.restarted e.2 t restartNow).rearmed now).heap p = some t' ∧ _) ↔ _
    simp only [rearmed_heap, hheap]
    constructor
    · rintro ⟨p, t', ht', hcallback⟩
      split at ht'
      · cases ht'
        exact ⟨e.2, t, ht, hcallback⟩
      · exact ⟨p, t', ht', hcallback⟩
    · rintro ⟨p, t', ht', hcallback⟩
      by_cases hp : p = e.2
      · subst hp
        obtain rfl := Option.some.inj (ht'.symm.trans ht)
        exact ⟨e.2, t'.restart restartNow, if_pos rfl, hcallback⟩
      · exact ⟨p, t', (if_neg hp).trans ht', hcallback⟩
  | @delete e rest t restartNow now hphase ht hrepeat =>
    refine (h.dropped ht).keeps haccounts' (by simp) (fun n => ?_) (fun n => by simp [timesDeleted])
    show (∃ p t', ((q.dropped e.2 t).rearmed now).heap p = some t' ∧ _) ↔ _
    rw [rearmed_heap]
    exact Iff.rfl

theorem deletedOnce_new : new.DeletedOnce := by
  refine ⟨accounts_new.distinct, ?_, ?_⟩
  · rintro n ⟨p, t, ht, -⟩
    cases ht
  · intro n hn
    cases hn

theorem deletedOnce_reaches {as : List Act} {q : TimerQueue} (h : machine.Reaches new as q) :
    q.DeletedOnce := by
  induction h with
  | refl => exact deletedOnce_new
  | snoc hrun he hs ih =>
    obtain ⟨hinv, haccounts⟩ := Machine.invariant_reaches machine_invariant hrun
    exact ih.step hinv haccounts (hinv.steps_of_step he hs)

/-- **No timer is leaked, and none is deleted twice.** `addTimer` is called on the loop's thread,
    and no call is still queued for it. After every run that is outside of `handleRead`,
    `~TimerQueue` touches no deleted timer and leaves none in memory; over the whole life of the
    queue every call of `addTimer` had its timer deleted exactly once. -/
theorem destroy_deletes_once {as : List Act} {q : TimerQueue} (h : machine.Reaches new as q)
    (hphase : q.phase = .outside) :
    ∃ q', q.destroy = some q' ∧ (∀ p, q'.heap p = none) ∧
      ∀ n, n < q.requests.length → q'.timesDeleted n = 1 := by
  obtain ⟨hinv, -⟩ := Machine.invariant_reaches machine_invariant h
  have hentries : q.entries = q.timers_ := by
    rw [entries, hphase]
    exact List.append_nil _
  have honce := deletedOnce_reaches h
  have hstart : ({ q with timerfd := .disarmed } : TimerQueue).DeletedOnce :=
    ⟨honce.distinct, honce.live, honce.gone⟩
  obtain ⟨q', hdestroy, hrequests, hend, hnone⟩ :=
    deleteTimers_spec hstart (hentries ▸ hinv.registered)
  have hlength : q'.requests.length = q.requests.length := congrArg List.length hrequests
  refine ⟨q', hdestroy, hnone, fun n hn => hend.gone n (by omega) ?_⟩
  rintro ⟨p, t, ht, -⟩
  rw [hnone] at ht
  cases ht

/-- One timer was run and deleted, one repeats and one waits for a `handleRead` that does not
    come. -/
theorem nestedRun_destroy :
    ∃ q q', machine.Reaches new nestedRun q ∧ q.destroy = some q' ∧
      (∀ n, n < 3 → q'.timesDeleted n = 1) ∧ ∀ p, q'.heap p = none := by
  have hrun : (machine.run new nestedRun).map (fun q => (q.phase, q.requests.length)) =
      some (.outside, 3) := by decide +kernel
  obtain ⟨q, hq, heq⟩ := Option.map_eq_some_iff.mp hrun
  obtain ⟨hphase, hlength⟩ := Prod.mk.inj heq
  have hreach := Machine.reaches_of_run hq
  obtain ⟨q', hdestroy, hnone, honce⟩ := destroy_deletes_once hreach hphase
  exact ⟨q, q', hreach, hdestroy, fun n hn => honce n (hlength ▸ hn), hnone⟩

end TimerQueue

end RainWebServer.Util
