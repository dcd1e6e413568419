import RainWebServer.Util.TimerQueueEntries

/-!
# TimerQueue: What Became of Every Call of `addTimer`

A call of `addTimer` has one timer. A repeating timer stays. A one-shot timer waits, is run, and is
deleted.

## Main result

`Accounts.step` : one action keeps the records of the timers right
-/

namespace RainWebServer.Util

open RainWebServer.Lib

/-! ## §1 The records -/

/-- The call of `addTimer` that the event is about. -/
def Event.callback : Event → Nat
  | .ran _ callback _ | .deleted callback => callback

namespace TimerQueue

/-- What happened to the timer of the n-th call of `addTimer`. -/
def history (q : TimerQueue) (n : Nat) : List Event := q.log.filter (fun ev => ev.callback = n)

/-- The timers, the calls of `addTimer` and the events belong together. -/
structure Accounts (q : TimerQueue) : Prop where
  /-- A timer is as its call has asked for. -/
  known : ∀ p t, q.heap p = some t → ∃ r, q.requests[t.callback_]? = some r ∧
    t.interval_ = r.interval ∧ t.repeat_ = r.interval.positive ∧
    (t.repeat_ = false → t.expiration_ = r.when_)
  /-- A call has one timer. -/
  distinct : ∀ p p' t t', q.heap p = some t → q.heap p' = some t' →
    t.callback_ = t'.callback_ → p = p'
  logged : ∀ ev ∈ q.log, ev.callback < q.requests.length
  waiting : ∀ e ∈ q.timers_ ++ q.phase.todo, ∀ t, q.heap e.2 = some t → t.repeat_ = false →
    q.history t.callback_ = []
  called : ∀ e ∈ q.phase.called, ∀ t, q.heap e.2 = some t → t.repeat_ = false →
    ∃ e' now, t.expiration_ ≤ now ∧ q.history t.callback_ = [.ran e' t.callback_ now]
  gone : ∀ n r, q.requests[n]? = some r → (∀ p t, q.heap p = some t → t.callback_ ≠ n) →
    r.interval.positive = false ∧
      ∃ e now, r.when_ ≤ now ∧ q.history n = [.ran e n now, .deleted n]

theorem accounts_new : new.Accounts := by
  constructor
  case known =>
    intro p t ht
    cases ht
  case distinct =>
    intro p p' t t' ht
    cases ht
  case logged =>
    intro ev hev
    cases hev
  case waiting =>
    intro e he
    cases he
  case called =>
    intro e he
    cases he
  case gone =>
    intro n r hr
    cases hr

/-- Without an event nothing changes but the places of the entries. -/
theorem Accounts.move {q q' : TimerQueue} (h : q.Accounts) (hheap : q'.heap = q.heap)
    (hrequests : q'.requests = q.requests) (hlog : q'.log = q.log)
    (hwaiting : ∀ e ∈ q'.timers_ ++ q'.phase.todo, e ∈ q.timers_ ++ q.phase.todo)
    (hcalled : ∀ e ∈ q'.phase.called, e ∈ q.phase.called) : q'.Accounts := by
  have hhistory : ∀ n, q'.history n = q.history n := by
    intro n
    rw [history, hlog, history]
  constructor
  case known =>
    rw [hheap, hrequests]
    exact h.known
  case distinct =>
    rw [hheap]
    exact h.distinct
  case logged =>
    rw [hlog, hrequests]
    exact h.logged
  case waiting =>
    intro e he t ht hrepeat
    rw [hheap] at ht
    rw [hhistory]
    exact h.waiting e (hwaiting e he) t ht hrepeat
  case called =>
    intro e he t ht hrepeat
    rw [hheap] at ht
    rw [hhistory]
    exact h.called e (hcalled e he) t ht hrepeat
  case gone =>
    intro n r hr hnone
    rw [hrequests] at hr
    rw [hheap] at hnone
    rw [hhistory]
    exact h.gone n r hr hnone

/-- One more event of a timer: its call is known too. -/
theorem Accounts.logged_concat (h : Accounts q) {p : Nat} {t : Timer} (ht : q.heap p = some t)
    {ev₀ : Event} (hev₀ : ev₀.callback = t.callback_) :
    ∀ ev ∈ q.log ++ [ev₀], ev.callback < q.requests.length := by
  obtain ⟨r, hr, -⟩ := h.known p t ht
  intro ev hev
  rcases List.mem_append.mp hev with hev | hev
  · exact h.logged ev hev
  · rw [List.mem_singleton.mp hev, hev₀]
    exact (List.getElem?_eq_some_iff.mp hr).1

theorem history_append (q q' : TimerQueue) {ev : Event} (hlog : q'.log = q.log ++ [ev]) (n : Nat) :
    q'.history n = q.history n ++ if ev.callback = n then [ev] else [] := by
  rw [history, hlog, List.filter_append, history]
  congr 1
  by_cases hn : ev.callback = n
  · rw [if_pos hn, List.filter_cons_of_pos (by simpa using hn), List.filter_nil]
  · rw [if_neg hn, List.filter_cons_of_neg (by simpa using hn), List.filter_nil]

/-! ## §2 One action -/

/-- A new timer: its call is the last one, and nothing has happened to it. -/
theorem Accounts.added {q : TimerQueue} (h : q.Accounts) (hinv : q.Inv) {p : Nat}
    (hfree : q.heap p = none) (request : Request) (now : Int) :
    (q.added p request now).Accounts := by
  -- only the new pointer holds something else than before, and no timer is lost
  have hheap : ∀ p' t, (q.added p request now).heap p' = some t →
      (p' = p ∧ t = Timer.new q.requests.length request.when_ request.interval) ∨
        q.heap p' = some t := by
    intro p' t ht
    rcases update_eq_some ht with ⟨hp', hnew⟩ | ⟨-, ht'⟩
    · cases hnew
      exact .inl ⟨hp', rfl⟩
    · exact .inr ht'
  have hold : ∀ p' t, q.heap p' = some t → (q.added p request now).heap p' = some t := by
    intro p' t ht
    have hne : p' ≠ p := by
      intro hp'
      rw [hp', hfree] at ht
      cases ht
    exact (Function.update_of_ne hne _ _).trans ht
  -- `requests.length` names no call yet, so no timer and no event belongs to it
  have hlt : ∀ p' t, q.heap p' = some t → t.callback_ < q.requests.length := by
    intro p' t ht
    obtain ⟨r, hr, -⟩ := h.known p' t ht
    exact (List.getElem?_eq_some_iff.mp hr).1
  have hrequests : (q.added p request now).requests = q.requests ++ [request] := rfl
  have hfresh : q.history q.requests.length = [] := by
    rw [history, List.filter_eq_nil_iff]
    intro ev hev hcallback
    exact absurd (of_decide_eq_true hcallback) (Nat.ne_of_lt (h.logged ev hev))
  constructor
  case known =>
    intro p' t ht
    rw [hrequests]
    rcases hheap p' t ht with ⟨-, rfl⟩ | ht'
    · exact ⟨request, List.getElem?_concat_length, rfl, rfl, fun _ => rfl⟩
    · obtain ⟨r, hr, hrest⟩ := h.known p' t ht'
      exact ⟨r, (List.getElem?_append_left (hlt p' t ht')).trans hr, hrest⟩
  case distinct =>
    intro p₁ p₂ t₁ t₂ ht₁ ht₂ hcallback
    rcases hheap p₁ t₁ ht₁ with ⟨hp₁, rfl⟩ | ht₁'
    · rcases hheap p₂ t₂ ht₂ with ⟨hp₂, rfl⟩ | ht₂'
      · rw [hp₁, hp₂]
      · exact absurd hcallback.symm (Nat.ne_of_lt (hlt p₂ t₂ ht₂'))
    · rcases hheap p₂ t₂ ht₂ with ⟨hp₂, rfl⟩ | ht₂'
      · exact absurd hcallback (Nat.ne_of_lt (hlt p₁ t₁ ht₁'))
      · exact h.distinct p₁ p₂ t₁ t₂ ht₁' ht₂' hcallback
  case logged =>
    intro ev hev
    rw [hrequests, List.length_append]
    exact Nat.lt_add_right _ (h.logged ev hev)
  case waiting =>
    intro e he t ht hrepeat
    rcases hheap e.2 t ht with ⟨-, rfl⟩ | ht'
    · exact hfresh
    · refine h.waiting e ?_ t ht' hrepeat
      rcases List.mem_append.mp he with hmem | hmem
      · have hnot := hinv.not_mem_of_free hfree request.when_
        rcases List.mem_cons.mp ((insertSorted_perm Entry.strictTotal hnot).mem_iff.mp hmem)
          with rfl | hmem
        · -- the new entry points where the heap was free: an old timer is not there
          rw [hfree] at ht'
          cases ht'
        · exact List.mem_append_left _ hmem
      · exact List.mem_append_right _ hmem
  case called =>
    intro e he t ht hrepeat
    rcases hheap e.2 t ht with ⟨hp, -⟩ | ht'
    · -- the batch points at timers that exist already, the new one does not
      obtain ⟨t', ht', -⟩ := hinv.keyed (List.mem_append_right _ (List.mem_append_right _ he))
      rw [hp, hfree] at ht'
      cases ht'
    · exact h.called e he t ht' hrepeat
  case gone =>
    intro n r hr hnone
    rw [hrequests, List.getElem?_append] at hr
    split at hr
    · exact h.gone n r hr fun p' t ht => hnone p' t (hold p' t ht)
    · rename_i hn
      -- the last call is the new one, and its timer exists
      have hlen : n = q.requests.length := by
        have hlt := (List.getElem?_eq_some_iff.mp hr).1
        simp only [List.length_singleton] at hlt
        omega
      exact absurd hlen.symm (hnone p _ (Function.update_self ..))

/-- A timer is run: it has not been run before if it is a one-shot timer. -/
theorem Accounts.ran {q : TimerQueue} (h : q.Accounts) (hinv : q.Inv) {now : Int}
    {called todo : List Entry} {e : Entry} {t : Timer}
    (hphase : q.phase = .calling now called (e :: todo)) (ht : q.heap e.2 = some t) :
    Accounts { q with
      log := q.log ++ [.ran e t.callback_ now]
      phase := .calling now (called ++ [e]) todo } := by
  -- every other entry is the entry of another timer, and so of another call
  have hregistered :
      Registered Timer.expiration_ q.heap (e :: (q.timers_ ++ (todo ++ called))) := by
    refine hinv.registered.perm ?_
    have hentries : q.entries = q.timers_ ++ e :: (todo ++ called) := by
      rw [entries, hphase]
      rfl
    rw [hentries]
    exact List.perm_middle.symm
  have hne : ∀ e' ∈ q.timers_ ++ (todo ++ called), e'.2 ≠ e.2 :=
    fun e' he' heq => (List.nodup_cons.mp hregistered.nodup).1 (List.mem_map.mpr ⟨e', he', heq⟩)
  have hhistory : ∀ n, n ≠ t.callback_ → TimerQueue.history { q with
      log := q.log ++ [.ran e t.callback_ now]
      phase := .calling now (called ++ [e]) todo } n = q.history n := by
    intro n hn
    rw [history_append q _ rfl, if_neg (fun heq => hn heq.symm), List.append_nil]
  have hother : ∀ e' ∈ q.timers_ ++ (todo ++ called), ∀ t', q.heap e'.2 = some t' →
      t'.callback_ ≠ t.callback_ :=
    fun e' he' t' ht' heq => hne e' he' (h.distinct e'.2 e.2 t' t ht' ht heq)
  have hwaiting : e ∈ q.timers_ ++ q.phase.todo := by
    rw [hphase]
    exact List.mem_append_right _ (List.mem_cons_self ..)
  constructor
  case known => exact h.known
  case distinct => exact h.distinct
  case logged => exact h.logged_concat ht rfl
  case waiting =>
    intro e' he' t' ht' hrepeat
    have hmem : e' ∈ q.timers_ ++ q.phase.todo ∧ e' ∈ q.timers_ ++ (todo ++ called) := by
      rw [hphase]
      rcases List.mem_append.mp he' with hmem | hmem
      · exact ⟨List.mem_append_left _ hmem, List.mem_append_left _ hmem⟩
      · exact ⟨List.mem_append_right _ (List.mem_cons_of_mem _ hmem),
          List.mem_append_right _ (List.mem_append_left _ hmem)⟩
    rw [hhistory _ (hother e' hmem.2 t' ht')]
    exact h.waiting e' hmem.1 t' ht' hrepeat
  case called =>
    intro e' he' t' ht' hrepeat
    rcases List.mem_append.mp he' with hmem | hmem
    · rw [hhistory _ (hother e' (List.mem_append_right _ (List.mem_append_right _ hmem)) t' ht')]
      exact h.called e' (by rw [hphase]; exact hmem) t' ht' hrepeat
    · -- the timer that has just been run was due
      rw [List.mem_singleton.mp hmem] at ht'
      have htt : t' = t := Option.some.inj (ht'.symm.trans ht)
      subst htt
      obtain ⟨t'', ht'', hkey⟩ := hregistered.keyed e (List.mem_cons_self ..)
      rw [ht, Option.some.injEq] at ht''
      have hdue := hinv.due now called (e :: todo) hphase e (List.mem_cons_self ..)
      refine ⟨e, now, by rw [ht'', hkey]; exact hdue, ?_⟩
      rw [history_append q _ rfl, h.waiting e hwaiting t' ht hrepeat]
      exact if_pos rfl
  case gone =>
    intro n r' hr' hnone
    rw [hhistory n (fun heq => hnone e.2 t ht heq.symm)]
    exact h.gone n r' hr' hnone

/-- A repeating timer is put back: its call has a timer as before. -/
theorem Accounts.restarted {q : TimerQueue} (h : q.Accounts) (hinv : q.Inv) {e : Entry}
    {rest : List Entry} {t : Timer} (hphase : q.phase = .resetting (e :: rest))
    (ht : q.heap e.2 = some t) (hrepeat : t.repeat_ = true) (restartNow now : Int) :
    Accounts { (q.restarted e.2 t restartNow).rearmed now with phase := .resetting rest } := by
  have hbatch : e ∈ q.phase.todo ++ q.phase.called := by
    rw [hphase]
    exact List.mem_cons_self ..
  have hnot := hinv.not_mem_of_batch hbatch (t.restart restartNow).expiration_
  -- `Timer::restart` changes the expiration only: the timer keeps its pointer and its call
  have hheap : ∀ p' t', ((q.restarted e.2 t restartNow).rearmed now).heap p' = some t' →
      (p' = e.2 ∧ t' = t.restart restartNow) ∨ (p' ≠ e.2 ∧ q.heap p' = some t') := by
    intro p' t' ht'
    rw [rearmed_heap] at ht'
    rcases update_eq_some ht' with ⟨hp', hnew⟩ | ⟨hp', ht''⟩
    · cases hnew
      exact .inl ⟨hp', rfl⟩
    · exact .inr ⟨hp', ht''⟩
  have hold : ∀ p' t', q.heap p' = some t' →
      ∃ t'', ((q.restarted e.2 t restartNow).rearmed now).heap p' = some t'' ∧
        t''.callback_ = t'.callback_ := by
    intro p' t' ht'
    rw [rearmed_heap]
    by_cases hp' : p' = e.2
    · rw [hp', ht, Option.some.injEq] at ht'
      exact ⟨t.restart restartNow, hp' ▸ Function.update_self .., ht' ▸ rfl⟩
    · exact ⟨t', (Function.update_of_ne hp' _ _).trans ht', rfl⟩
  have hrequests : ((q.restarted e.2 t restartNow).rearmed now).requests = q.requests := by
    rw [rearmed_requests]
    rfl
  have hlog : ((q.restarted e.2 t restartNow).rearmed now).log = q.log := by
    rw [rearmed_log]
    rfl
  have hhistory : ∀ n, TimerQueue.history { (q.restarted e.2 t restartNow).rearmed now with
      phase := .resetting rest } n = q.history n := by
    intro n
    show List.filter _ ((q.restarted e.2 t restartNow).rearmed now).log = _
    rw [hlog, history]
  constructor
  case known =>
    intro p' t' ht'
    show ∃ r, ((q.restarted e.2 t restartNow).rearmed now).requests[t'.callback_]? = some r ∧ _
    rw [hrequests]
    rcases hheap p' t' ht' with ⟨-, rfl⟩ | ⟨-, ht''⟩
    · obtain ⟨r, hr, hinterval, hpositive, -⟩ := h.known e.2 t ht
      -- the timer repeats, so nothing is said about its expiration
      refine ⟨r, hr, hinterval, hpositive, fun hfalse => ?_⟩
      have hrepeat' : (t.restart restartNow).repeat_ = true := hrepeat
      rw [hrepeat'] at hfalse
      cases hfalse
    · exact h.known p' t' ht''
  case distinct =>
    intro p₁ p₂ t₁ t₂ ht₁ ht₂ hcallback
    rcases hheap p₁ t₁ ht₁ with ⟨hp₁, rfl⟩ | ⟨-, ht₁'⟩
    · rcases hheap p₂ t₂ ht₂ with ⟨hp₂, rfl⟩ | ⟨-, ht₂'⟩
      · rw [hp₁, hp₂]
      · rw [hp₁]
        exact h.distinct e.2 p₂ t t₂ ht ht₂' hcallback
    · -- a restarted timer still counts as the timer of its call
      rcases hheap p₂ t₂ ht₂ with ⟨hp₂, rfl⟩ | ⟨-, ht₂'⟩
      · rw [hp₂]
        exact h.distinct p₁ e.2 t₁ t ht₁' ht hcallback
      · exact h.distinct p₁ p₂ t₁ t₂ ht₁' ht₂' hcallback
  case logged =>
    show ∀ ev ∈ ((q.restarted e.2 t restartNow).rearmed now).log,
      ev.callback < ((q.restarted e.2 t restartNow).rearmed now).requests.length
    rw [hlog, hrequests]
    exact h.logged
  case waiting =>
    intro e' he' t' ht' hrepeat'
    rw [hhistory]
    rcases hheap e'.2 t' ht' with ⟨-, rfl⟩ | ⟨hne, ht''⟩
    · have hrepeat'' : (t.restart restartNow).repeat_ = true := hrepeat
      rw [hrepeat''] at hrepeat'
      cases hrepeat'
    · refine h.waiting e' (List.mem_append_left _ ?_) t' ht'' hrepeat'
      have hmem : e' ∈ ((q.restarted e.2 t restartNow).rearmed now).timers_ := by
        simpa [Phase.todo] using he'
      rw [rearmed_timers_] at hmem
      rcases List.mem_cons.mp ((insertSorted_perm Entry.strictTotal hnot).mem_iff.mp hmem)
        with rfl | hmem
      · exact absurd rfl hne
      · exact hmem
  case called =>
    intro e' he' t' ht' hrepeat'
    rw [hhistory]
    rcases hheap e'.2 t' ht' with ⟨-, rfl⟩ | ⟨-, ht''⟩
    · have hrepeat'' : (t.restart restartNow).repeat_ = true := hrepeat
      rw [hrepeat''] at hrepeat'
      cases hrepeat'
    · refine h.called e' ?_ t' ht'' hrepeat'
      rw [hphase]
      exact List.mem_cons_of_mem _ he'
  -- whatever call has lost its timer had lost it before
  case gone =>
    intro n r hr hnone
    rw [hhistory]
    have hr' : ((q.restarted e.2 t restartNow).rearmed now).requests[n]? = some r := hr
    rw [hrequests] at hr'
    refine h.gone n r hr' fun p' t' ht' heq => ?_
    obtain ⟨t'', ht'', hcallback⟩ := hold p' t' ht'
    exact hnone p' t'' ht'' (hcallback.trans heq)

/-- A one-shot timer is deleted: it has been run. -/
theorem Accounts.dropped {q : TimerQueue} (h : q.Accounts) (hinv : q.Inv) {e : Entry}
    {rest : List Entry} {t : Timer} (hphase : q.phase = .resetting (e :: rest))
    (ht : q.heap e.2 = some t) (hrepeat : t.repeat_ = false) (now : Int) :
    Accounts { (q.dropped e.2 t).rearmed now with phase := .resetting rest } := by
  have hnodup := (hinv.registered_rest hphase).nodup
  have hne : ∀ e' ∈ q.timers_ ++ rest, e'.2 ≠ e.2 :=
    fun e' he' heq => (List.nodup_cons.mp hnodup).1 (List.mem_map.mpr ⟨e', he', heq⟩)
  -- the only timer that goes is the one of `e`
  have hheap : ∀ p' t', ((q.dropped e.2 t).rearmed now).heap p' = some t' →
      p' ≠ e.2 ∧ q.heap p' = some t' := by
    intro p' t' ht'
    rw [rearmed_heap] at ht'
    rcases update_eq_some ht' with ⟨-, hnone⟩ | ⟨hp', ht''⟩
    · cases hnone
    · exact ⟨hp', ht''⟩
  have hold : ∀ p' t', p' ≠ e.2 → q.heap p' = some t' →
      ((q.dropped e.2 t).rearmed now).heap p' = some t' := by
    intro p' t' hp' ht'
    rw [rearmed_heap]
    exact (Function.update_of_ne hp' _ _).trans ht'
  have hrequests : ((q.dropped e.2 t).rearmed now).requests = q.requests := by
    rw [rearmed_requests]
    rfl
  have hlog : ((q.dropped e.2 t).rearmed now).log = q.log ++ [.deleted t.callback_] := by
    rw [rearmed_log]
    rfl
  have hhistory := history_append q { (q.dropped e.2 t).rearmed now with phase := .resetting rest }
    hlog
  have hsame : ∀ n, n ≠ t.callback_ → TimerQueue.history
      { (q.dropped e.2 t).rearmed now with phase := .resetting rest } n = q.history n := by
    intro n hn
    rw [hhistory, if_neg (fun heq => hn heq.symm), List.append_nil]
  -- the event that is logged is about the call of `e` alone
  have hother : ∀ p' t', p' ≠ e.2 → q.heap p' = some t' → t'.callback_ ≠ t.callback_ :=
    fun p' t' hp' ht' heq => hp' (h.distinct p' e.2 t' t ht' ht heq)
  obtain ⟨r, hr, -, hpositive, hwhen⟩ := h.known e.2 t ht
  constructor
  case known =>
    intro p' t' ht'
    show ∃ r, ((q.dropped e.2 t).rearmed now).requests[t'.callback_]? = some r ∧ _
    rw [hrequests]
    exact h.known p' t' (hheap p' t' ht').2
  case distinct =>
    intro p₁ p₂ t₁ t₂ ht₁ ht₂ hcallback
    exact h.distinct p₁ p₂ t₁ t₂ (hheap p₁ t₁ ht₁).2 (hheap p₂ t₂ ht₂).2 hcallback
  case logged =>
    show ∀ ev ∈ ((q.dropped e.2 t).rearmed now).log,
      ev.callback < ((q.dropped e.2 t).rearmed now).requests.length
    rw [hlog, hrequests]
    exact h.logged_concat ht rfl
  case waiting =>
    intro e' he' t' ht' hrepeat'
    obtain ⟨hp', ht''⟩ := hheap e'.2 t' ht'
    rw [hsame _ (hother e'.2 t' hp' ht'')]
    have hmem : e' ∈ ((q.dropped e.2 t).rearmed now).timers_ := by
      simpa [Phase.todo] using he'
    rw [rearmed_timers_] at hmem
    exact h.waiting e' (List.mem_append_left _ hmem) t' ht'' hrepeat'
  case called =>
    intro e' he' t' ht' hrepeat'
    obtain ⟨hp', ht''⟩ := hheap e'.2 t' ht'
    rw [hsame _ (hother e'.2 t' hp' ht'')]
    refine h.called e' ?_ t' ht'' hrepeat'
    rw [hphase]
    exact List.mem_cons_of_mem _ he'
  case gone =>
    intro n r' hr' hnone
    have hr'' : ((q.dropped e.2 t).rearmed now).requests[n]? = some r' := hr'
    rw [hrequests] at hr''
    by_cases hn : n = t.callback_
    · -- the call of the deleted timer: the batch has run it, once
      rw [hn, hr, Option.some.injEq] at hr''
      subst hr''
      obtain ⟨e', now', hle, hran⟩ := h.called e (by rw [hphase]; exact List.mem_cons_self ..) t ht
        hrepeat
      refine ⟨hpositive.symm.trans hrepeat, e', now', hwhen hrepeat ▸ hle, ?_⟩
      rw [hhistory, hn, hran]
      exact congrArg _ (if_pos rfl)
    · rw [hsame n hn]
      refine h.gone n r' hr'' fun p' t' ht' heq => ?_
      have hp' : p' ≠ e.2 := by
        intro hp'
        rw [hp', ht, Option.some.injEq] at ht'
        exact hn (heq.symm.trans (ht' ▸ rfl))
      exact hnone p' t' (hold p' t' hp' ht') heq

/-- **One action** keeps the records right. -/
theorem Accounts.step {q : TimerQueue} (h : q.Accounts) (hinv : q.Inv) {a : Act} {q' : TimerQueue}
    (hs : Steps q a q') : q'.Accounts := by
  cases hs with
  | addTimer hphase hfree hp => exact h.added hinv hfree _ _
  | expire harmed => exact h.move rfl rfl rfl (fun e he => he) (fun e he => he)
  | @handleRead now hphase =>
    refine h.move rfl rfl rfl (fun e he => List.mem_append_left _ ?_) (fun e he => by cases he)
    rw [← expiredOf_append_unexpiredOf q.timers_ now]
    exact List.mem_append.mpr (List.mem_append.mp he).symm
  | runTimer hphase ht => exact h.ran hinv hphase ht
  | beginReset hphase =>
    refine h.move rfl rfl rfl (fun e he => ?_) (fun e he => ?_)
    · rw [hphase]
      exact he
    · rw [hphase]
      exact he
  | restart hphase ht hrepeat => exact h.restarted hinv hphase ht hrepeat _ _
  | delete hphase ht hrepeat => exact h.dropped hinv hphase ht hrepeat _
  | endRead hphase =>
    refine h.move rfl rfl rfl (fun e he => ?_) (fun e he => by cases he)
    rw [hphase]
    exact he

end TimerQueue

end RainWebServer.Util
