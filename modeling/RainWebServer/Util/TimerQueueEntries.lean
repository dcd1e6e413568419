import RainWebServer.Util.TimerQueue
import RainWebServer.Lib.Registry

/-!
# TimerQueue: Timers and Entries

The timers in memory are the entries of `timers_` and of the batch that `handleRead` has taken out
of it, each under its expiration. So `handleRead` and `reset` never touch a deleted timer.

## Main results

- `expiredOf_eq` : the sentinel of `getExpired` separates the entries that are due
- `Inv.steps` : an action that can be taken does not fault
- `Inv.step` : it keeps the entries and the timers together
-/

namespace RainWebServer.Util

open RainWebServer.Lib

/-! ## §1 The order of the entries -/

theorem Entry.lt_iff {a b : Entry} : a.lt b = true ↔ a.1 < b.1 ∨ (a.1 = b.1 ∧ a.2 < b.2) := by
  simp only [Entry.lt, Bool.or_eq_true, Bool.and_eq_true, Bool.not_eq_true', decide_eq_true_eq,
    decide_eq_false_iff_not]
  omega

theorem Entry.strictTotal : StrictTotal Entry.lt := by
  constructor
  case trans =>
    intro a b c hab hbc
    rw [Entry.lt_iff] at *
    omega
  case total =>
    intro a b hab hba
    have hab' : ¬(a.1 < b.1 ∨ (a.1 = b.1 ∧ a.2 < b.2)) := by
      rw [← Entry.lt_iff, hab]
      decide
    have hba' : ¬(b.1 < a.1 ∨ (b.1 = a.1 ∧ b.2 < a.2)) := by
      rw [← Entry.lt_iff, hba]
      decide
    exact Prod.ext (by omega) (by omega)

/-- The sentinel is above exactly the entries that are due. -/
theorem Entry.lt_sentry {e : Entry} (he : e.2 < uintptrMax) (now : Int) :
    e.lt (now, uintptrMax) = decide (e.1 ≤ now) := by
  rw [Bool.eq_iff_iff, Entry.lt_iff, decide_eq_true_eq]
  show e.1 < now ∨ (e.1 = now ∧ e.2 < uintptrMax) ↔ _
  omega

/-- An entry before one that is below the sentinel is below it too. -/
theorem Entry.lt_sentry_of_lt (now : Int) (a b : Entry) (hab : a.lt b = true)
    (hb : b.lt (now, uintptrMax) = true) : a.lt (now, uintptrMax) = true :=
  Entry.strictTotal.trans a b _ hab hb

/-- `getExpired` splits `timers_`. -/
theorem expiredOf_append_unexpiredOf (timers : List Entry) (now : Int) :
    expiredOf timers now ++ unexpiredOf timers now = timers :=
  List.takeWhile_append_dropWhile

/-- `getExpired` takes the entries that are due. -/
theorem expiredOf_eq {timers : List Entry} (h : Ascending Entry.lt timers)
    (hbelow : ∀ e ∈ timers, e.2 < uintptrMax) (now : Int) :
    expiredOf timers now = timers.filter (fun e => e.1 ≤ now) := by
  rw [expiredOf, takeWhile_eq_filter (Entry.lt_sentry_of_lt now) h]
  exact List.filter_congr fun e he => Entry.lt_sentry (hbelow e he) now

/-- It leaves the others. -/
theorem mem_unexpiredOf {timers : List Entry} (h : Ascending Entry.lt timers)
    (hbelow : ∀ e ∈ timers, e.2 < uintptrMax) (now : Int) (e : Entry) :
    e ∈ unexpiredOf timers now ↔ e ∈ timers ∧ now < e.1 := by
  rw [unexpiredOf, dropWhile_eq_filter (Entry.lt_sentry_of_lt now) h, List.mem_filter]
  refine and_congr_right fun he => ?_
  rw [Entry.lt_sentry (hbelow e he)]
  simp

/-- The entries of the batch that have not been run. -/
def Phase.todo : Phase → List Entry
  | .calling _ _ todo => todo
  | .outside | .resetting _ => []

/-- The entries of the batch that have been run, and not been reset. -/
def Phase.called : Phase → List Entry
  | .calling _ called _ => called
  | .resetting rest => rest
  | .outside => []

namespace TimerQueue

/-! ## §2 What the operations compute -/

/-- The state after `addTimer`. -/
def added (q : TimerQueue) (p : Nat) (request : Request) (now : Int) : TimerQueue :=
  { q.newTimer p request with
    timers_ := insertEntry (request.when_, p) q.timers_
    timerfd := if earliestChanged q.timers_ request.when_ then settime request.when_ now
      else q.timerfd }

theorem addTimer_eq (q : TimerQueue) (p : Nat) (request : Request) (now : Int) :
    q.addTimer p request now = some (q.added p request now) := by
  have hheap : (q.newTimer p request).heap p =
      some (Timer.new q.requests.length request.when_ request.interval) :=
    Function.update_self ..
  simp only [addTimer, addTimerInLoop, insert, hheap, Option.bind_eq_bind, Option.bind_some]
  have htimers : (q.newTimer p request).timers_ = q.timers_ := rfl
  have hwhen : (Timer.new q.requests.length request.when_ request.interval).expiration_ =
      request.when_ := rfl
  rw [htimers, hwhen, added]
  split
  · rfl
  · rfl

/-- The state after a repeating timer has been restarted and inserted. -/
def restarted (q : TimerQueue) (p : Nat) (t : Timer) (now : Int) : TimerQueue :=
  { q with
    heap := Function.update q.heap p (some (t.restart now))
    timers_ := insertEntry ((t.restart now).expiration_, p) q.timers_ }

/-- The state after a timer has been deleted. -/
def dropped (q : TimerQueue) (p : Nat) (t : Timer) : TimerQueue :=
  { q with
    heap := Function.update q.heap p none
    log := q.log ++ [.deleted t.callback_] }

theorem restartOrDelete_eq (q : TimerQueue) {p : Nat} {t : Timer} (ht : q.heap p = some t)
    (now : Int) :
    q.restartOrDelete p now = some (if t.repeat_ then q.restarted p t now else q.dropped p t) := by
  simp only [restartOrDelete, ht, Option.bind_eq_bind, Option.bind_some]
  split
  · simp only [insert, Function.update_self, Option.bind_eq_bind, Option.bind_some,
      Option.map_some]
    rfl
  · rfl

/-- The state after the last `if` of the loop of `reset`. -/
def rearmed (q : TimerQueue) (now : Int) : TimerQueue :=
  match q.timers_ with
  | [] => q
  | first :: _ => q.resetTimerfd first.1 now

theorem rearm_eq {q : TimerQueue}
    (hkeyed : ∀ e ∈ q.timers_, ∃ t, q.heap e.2 = some t ∧ t.expiration_ = e.1) (now : Int) :
    q.rearm now = some (q.rearmed now) := by
  rw [rearm, rearmed]
  cases hfirst : q.timers_ with
  | nil => rfl
  | cons first rest =>
    obtain ⟨t, ht, hkey⟩ := hkeyed first (hfirst ▸ List.mem_cons_self ..)
    show (q.heap first.2).map _ = _
    rw [ht, Option.map_some, hkey]

@[simp] theorem rearmed_heap (q : TimerQueue) (now : Int) : (q.rearmed now).heap = q.heap := by
  unfold rearmed
  split <;> rfl

@[simp] theorem rearmed_timers_ (q : TimerQueue) (now : Int) :
    (q.rearmed now).timers_ = q.timers_ := by
  unfold rearmed
  split <;> rfl

@[simp] theorem rearmed_log (q : TimerQueue) (now : Int) : (q.rearmed now).log = q.log := by
  unfold rearmed
  split <;> rfl

@[simp] theorem rearmed_requests (q : TimerQueue) (now : Int) :
    (q.rearmed now).requests = q.requests := by
  unfold rearmed
  split <;> rfl

/-- What one action does. -/
inductive Steps (q : TimerQueue) : Act → TimerQueue → Prop where
  | addTimer {p : Nat} {request : Request} {now : Int} (hphase : q.phase.calls = true)
      (hfree : q.heap p = none) (hp : p < uintptrMax) :
      Steps q (.addTimer p request now) (q.added p request now)
  | expire {setting : Setting} (harmed : q.timerfd = .armed setting) :
      Steps q .expire { q with timerfd := .expired setting }
  | handleRead {now : Int} (hphase : q.phase = .outside) :
      Steps q (.handleRead now) (q.beginRead now)
  | runTimer {now : Int} {called todo : List Entry} {e : Entry} {t : Timer}
      (hphase : q.phase = .calling now called (e :: todo)) (ht : q.heap e.2 = some t) :
      Steps q .runTimer { q with
        log := q.log ++ [.ran e t.callback_ now]
        phase := .calling now (called ++ [e]) todo }
  | beginReset {now : Int} {called : List Entry} (hphase : q.phase = .calling now called []) :
      Steps q .beginReset { q with phase := .resetting called }
  | restart {e : Entry} {rest : List Entry} {t : Timer} {restartNow now : Int}
      (hphase : q.phase = .resetting (e :: rest)) (ht : q.heap e.2 = some t)
      (hrepeat : t.repeat_ = true) :
      Steps q (.resetTimer restartNow now)
        { (q.restarted e.2 t restartNow).rearmed now with phase := .resetting rest }
  | delete {e : Entry} {rest : List Entry} {t : Timer} {restartNow now : Int}
      (hphase : q.phase = .resetting (e :: rest)) (ht : q.heap e.2 = some t)
      (hrepeat : t.repeat_ = false) :
      Steps q (.resetTimer restartNow now)
        { (q.dropped e.2 t).rearmed now with phase := .resetting rest }
  | endRead (hphase : q.phase = .resetting []) :
      Steps q .endRead { q with phase := .outside }

/-! ## §3 The timers and their entries -/

/-- The entries of all timers. -/
def entries (q : TimerQueue) : List Entry := q.timers_ ++ (q.phase.todo ++ q.phase.called)

/-- The entries and the timers belong together. -/
structure Inv (q : TimerQueue) : Prop where
  ascending : Ascending Entry.lt q.timers_
  registered : Registered Timer.expiration_ q.heap q.entries
  below : ∀ p t, q.heap p = some t → p < uintptrMax
  due : ∀ now called todo, q.phase = .calling now called todo → ∀ e ∈ todo, e.1 ≤ now

theorem inv_new : new.Inv := by
  refine ⟨List.Pairwise.nil, ⟨List.nodup_nil, ?_, ?_⟩, ?_, ?_⟩
  · intro e he
    cases he
  · intro p t ht
    cases ht
  · intro p t ht
    cases ht
  · intro now called todo hphase
    cases hphase

namespace Inv

variable {q : TimerQueue}

theorem keyed (h : q.Inv) {e : Entry} (he : e ∈ q.entries) :
    ∃ t, q.heap e.2 = some t ∧ t.expiration_ = e.1 :=
  h.registered.keyed e he

theorem below_timers (h : q.Inv) : ∀ e ∈ q.timers_, e.2 < uintptrMax := by
  intro e he
  obtain ⟨t, ht, -⟩ := h.keyed (List.mem_append_left _ he)
  exact h.below e.2 t ht

/-- An address that is not in use is in no entry. -/
theorem not_mem_of_free (h : q.Inv) {p : Nat} (hfree : q.heap p = none) (w : Int) :
    (w, p) ∉ q.timers_ := by
  intro hmem
  obtain ⟨t, ht, -⟩ := h.keyed (List.mem_append_left _ hmem)
  rw [hfree] at ht
  cases ht

/-- The address of an entry of the batch is in no entry of `timers_`. -/
theorem not_mem_of_batch (h : q.Inv) {e : Entry} (he : e ∈ q.phase.todo ++ q.phase.called)
    (w : Int) : (w, e.2) ∉ q.timers_ := by
  intro hmem
  have hnodup := h.registered.nodup
  rw [entries, List.map_append, List.nodup_append] at hnodup
  exact hnodup.2.2 e.2 (List.mem_map.mpr ⟨_, hmem, rfl⟩) e.2 (List.mem_map.mpr ⟨_, he, rfl⟩) rfl

/-- A new timer. -/
theorem added (h : q.Inv) {p : Nat} (hfree : q.heap p = none) (hp : p < uintptrMax)
    (request : Request) (now : Int) : (q.added p request now).Inv := by
  have hnot := h.not_mem_of_free hfree request.when_
  have hperm := insertSorted_perm Entry.strictTotal hnot
  refine ⟨insertSorted_pairwise Entry.strictTotal hnot h.ascending, ?_, fun p' t ht => ?_, h.due⟩
  · exact (h.registered.new hfree _).perm (hperm.append_right _)
  · rcases update_eq_some ht with ⟨rfl, -⟩ | ⟨-, ht'⟩
    · exact hp
    · exact h.below p' t ht'

/-- The entries, when the batch starts with `e`. -/
theorem registered_rest (h : q.Inv) {e : Entry} {rest : List Entry}
    (hphase : q.phase = .resetting (e :: rest)) :
    Registered Timer.expiration_ q.heap (e :: (q.timers_ ++ rest)) := by
  have hentries : q.entries = q.timers_ ++ e :: rest := by
    rw [entries, hphase]
    rfl
  refine h.registered.perm ?_
  rw [hentries]
  exact List.perm_middle.symm

/-- A repeating timer is back. -/
theorem restarted (h : q.Inv) {e : Entry} {rest : List Entry} {t : Timer}
    (hphase : q.phase = .resetting (e :: rest)) (ht : q.heap e.2 = some t) (now : Int) :
    Ascending Entry.lt (q.restarted e.2 t now).timers_ ∧
      Registered Timer.expiration_ (q.restarted e.2 t now).heap
        ((q.restarted e.2 t now).timers_ ++ rest) ∧
      ∀ p t', (q.restarted e.2 t now).heap p = some t' → p < uintptrMax := by
  have hbatch : e ∈ q.phase.todo ++ q.phase.called := by
    rw [hphase]
    exact List.mem_cons_self ..
  have hnot := h.not_mem_of_batch hbatch (t.restart now).expiration_
  have hperm := insertSorted_perm Entry.strictTotal hnot
  refine ⟨insertSorted_pairwise Entry.strictTotal hnot h.ascending, ?_, fun p t' ht' => ?_⟩
  · exact ((h.registered_rest hphase).rekey (t.restart now)).perm (hperm.append_right _)
  · rcases update_eq_some ht' with ⟨rfl, -⟩ | ⟨-, ht''⟩
    · exact h.below e.2 t ht
    · exact h.below p t' ht''

/-- Any other timer is gone. -/
theorem dropped (h : q.Inv) {e : Entry} {rest : List Entry}
    (hphase : q.phase = .resetting (e :: rest)) (t : Timer) :
    Registered Timer.expiration_ (q.dropped e.2 t).heap ((q.dropped e.2 t).timers_ ++ rest) ∧
      ∀ p t', (q.dropped e.2 t).heap p = some t' → p < uintptrMax := by
  refine ⟨(h.registered_rest hphase).delete, fun p t' ht' => ?_⟩
  rcases update_eq_some ht' with ⟨-, hnone⟩ | ⟨-, ht''⟩
  · cases hnone
  · exact h.below p t' ht''

/-- **An action that can be taken does not fault**, and does what `Steps` says. -/
theorem steps (h : q.Inv) {a : Act} (ha : q.enabled a = true) :
    ∃ q', q.step a = some q' ∧ Steps q a q' := by
  cases a with
  | addTimer p request now =>
    simp only [enabled, Bool.and_eq_true, Option.isNone_iff_eq_none, decide_eq_true_eq] at ha
    exact ⟨_, addTimer_eq q p request now, .addTimer ha.1.1 ha.1.2 ha.2⟩
  | expire =>
    cases harmed : q.timerfd with
    | armed setting => exact ⟨_, by simp only [step, harmed], .expire harmed⟩
    | disarmed => simp [enabled, harmed] at ha
    | expired setting => simp [enabled, harmed] at ha
  | handleRead now => exact ⟨_, rfl, .handleRead (of_decide_eq_true ha)⟩
  | runTimer =>
    simp only [enabled] at ha
    split at ha
    · rename_i now called e todo hphase
      -- an entry of the batch points at a timer, so `it.second->run()` is safe
      have hmem : e ∈ q.entries := by
        rw [entries, hphase]
        exact List.mem_append_right _ (List.mem_append_left _ (List.mem_cons_self ..))
      obtain ⟨t, ht, -⟩ := h.keyed hmem
      refine ⟨_, ?_, .runTimer hphase ht⟩
      simp only [step, hphase, TimerQueue.runTimer, ht, Option.bind_eq_bind, Option.bind_some]
    · cases ha
  | beginReset =>
    simp only [enabled] at ha
    split at ha
    · rename_i now called hphase
      exact ⟨_, by simp only [step, hphase], .beginReset hphase⟩
    · cases ha
  | resetTimer restartNow now =>
    simp only [enabled] at ha
    split at ha
    · rename_i e rest hphase
      have hmem : e ∈ q.entries := by
        rw [entries, hphase]
        exact List.mem_append_right _ (List.mem_cons_self ..)
      obtain ⟨t, ht, -⟩ := h.keyed hmem
      cases hrepeat : t.repeat_ with
      | true =>
        -- `nextExpire` follows the first entry that is left, which may be the one put back
        have hkeyed := (h.restarted hphase ht restartNow).2.1.keyed
        refine ⟨_, ?_, .restart hphase ht hrepeat⟩
        simp only [step, hphase, TimerQueue.resetTimer, restartOrDelete_eq q ht, hrepeat, if_true,
          Option.bind_eq_bind, Option.bind_some,
          rearm_eq (fun e he => hkeyed e (List.mem_append_left _ he))]
      | false =>
        have hkeyed := (h.dropped hphase t).1.keyed
        refine ⟨_, ?_, .delete hphase ht hrepeat⟩
        simp only [step, hphase, TimerQueue.resetTimer, restartOrDelete_eq q ht, hrepeat,
          Bool.false_eq_true, if_false, Option.bind_eq_bind, Option.bind_some,
          rearm_eq (fun e he => hkeyed e (List.mem_append_left _ he))]
    · cases ha
  | endRead => exact ⟨_, rfl, .endRead (of_decide_eq_true ha)⟩

/-- **One action** keeps the entries and the timers together. -/
theorem step (h : q.Inv) {a : Act} {q' : TimerQueue} (hs : Steps q a q') : q'.Inv := by
  cases hs with
  | addTimer hphase hfree hp => exact h.added hfree hp _ _
  | expire harmed => exact ⟨h.ascending, h.registered, h.below, h.due⟩
  | @handleRead now hphase =>
    refine ⟨?_, ?_, h.below, fun now' called todo hphase' e he => ?_⟩
    · exact h.ascending.sublist (List.dropWhile_sublist _)
    · refine h.registered.perm ?_
      -- the batch is taken out of `timers_`: the two parts are what was there
      have hold : q.entries = expiredOf q.timers_ now ++ unexpiredOf q.timers_ now := by
        rw [expiredOf_append_unexpiredOf, entries, hphase]
        exact List.append_nil _
      have hnew : (q.beginRead now).entries =
          unexpiredOf q.timers_ now ++ expiredOf q.timers_ now :=
        congrArg _ (List.append_nil _)
      rw [hold, hnew]
      exact List.perm_append_comm
    · cases hphase'
      -- what `getExpired` cuts off is due: the sentinel is above every pointer
      rw [expiredOf_eq h.ascending h.below_timers, List.mem_filter, decide_eq_true_eq] at he
      exact he.2
  | @runTimer now called todo e t hphase ht =>
    refine ⟨h.ascending, h.registered.perm ?_, h.below, fun now' called' todo' hphase' e' he' => ?_⟩
    · have hold : q.entries = q.timers_ ++ (e :: todo ++ called) := by
        rw [entries, hphase]
        rfl
      rw [hold]
      show (q.timers_ ++ (todo ++ (called ++ [e]))).Perm _
      rw [List.cons_append, ← List.append_assoc todo]
      -- the entry goes from the rest of the batch to its end
      exact (List.perm_append_singleton e _).append_left _
    · cases hphase'
      exact h.due now called (e :: todo) hphase e' (List.mem_cons_of_mem _ he')
  | beginReset hphase =>
    refine ⟨h.ascending, h.registered.perm ?_, h.below, fun now' called' todo' hphase' => ?_⟩
    · rw [entries, entries, hphase]
      exact .refl _
    · cases hphase'
  | restart hphase ht hrepeat =>
    obtain ⟨hascending, hregistered, hbelow⟩ := h.restarted hphase ht _
    refine ⟨?_, ?_, ?_, fun now' called' todo' hphase' => by cases hphase'⟩
    · simpa using hascending
    · simpa [entries, Phase.todo, Phase.called] using hregistered
    · simpa using hbelow
  | @delete e rest t restartNow now hphase ht hrepeat =>
    obtain ⟨hregistered, hbelow⟩ := h.dropped hphase t
    refine ⟨?_, ?_, ?_, fun now' called' todo' hphase' => by cases hphase'⟩
    · show Ascending Entry.lt ((q.dropped e.2 t).rearmed now).timers_
      rw [rearmed_timers_]
      exact h.ascending
    · simpa [entries, Phase.todo, Phase.called] using hregistered
    · simpa using hbelow
  | endRead hphase =>
    refine ⟨h.ascending, h.registered.perm ?_, h.below, fun now' called' todo' hphase' => ?_⟩
    · rw [entries, entries, hphase]
      exact .refl _
    · cases hphase'

/-- The same for a step that has been taken. -/
theorem steps_of_step (h : q.Inv) {a : Act} {q' : TimerQueue} (ha : q.enabled a = true)
    (hstep : q.step a = some q') : Steps q a q' := by
  obtain ⟨q'', hstep', hs⟩ := h.steps ha
  cases hstep'.symm.trans hstep
  exact hs

end Inv

end TimerQueue

end RainWebServer.Util
