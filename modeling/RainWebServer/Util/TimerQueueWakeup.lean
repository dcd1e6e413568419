import RainWebServer.Util.TimerQueueEntries

/-!
# TimerQueue: Pending Timers and the Timerfd

The timerfd is set in two places: by `addTimerInLoop` when the new timer is the earliest, and by
`reset` after every timer of the batch. It is one-shot, so a read of its expiration leaves it
disarmed. A `handleRead` that finds nothing due, by a wall clock that is behind the timerfd, has an
empty batch and does not set it again.

## Main results

- `Ready.step` : one action, if a `handleRead` finds something due
- `timerQueue_wakes` : in such runs a pending timer always has a wakeup
- `earlyRun_loses_wakeup` : a run with an early expiration in which it has none
-/

namespace RainWebServer.Util

open RainWebServer.Lib

/-! ## §1 Settings -/

theorem timespecOf_nanos (m : Int) : (timespecOf m).nanos = 1000 * m := by
  have hsplit := Int.mul_tdiv_add_tmod m kMicroSecondsPerSecond
  simp only [timespecOf, Timespec.nanos, kMicroSecondsPerSecond] at *
  omega

/-- What `resetTimerfd` sets. -/
theorem settime_setting (expiration now : Int) :
    ∃ setting, (settime expiration now).setting = some setting ∧ setting.now = now ∧
      setting.it_value.nanos = 1000 * max 100 (expiration - now) := by
  refine ⟨_, rfl, rfl, ?_⟩
  rw [timespecOf_nanos]
  split <;> omega

/-- The timerfd has expired and the expiration has not been read. -/
def Timerfd.unread : Timerfd → Bool
  | .expired _ => true
  | .disarmed | .armed _ => false

theorem Timerfd.read_of_unread {timerfd : Timerfd} (h : timerfd.unread = true) :
    timerfd.read = .disarmed := by
  cases timerfd with
  | expired setting => rfl
  | disarmed => cases h
  | armed setting => cases h

theorem Timerfd.read_of_not_unread {timerfd : Timerfd} (h : timerfd.unread = false) :
    timerfd.read = timerfd := by
  cases timerfd with
  | expired setting => cases h
  | disarmed => rfl
  | armed setting => rfl

/-- Reading does not set the timerfd. -/
theorem Timerfd.setting_of_read {timerfd : Timerfd} {setting : Setting}
    (h : timerfd.read.setting = some setting) : timerfd.setting = some setting := by
  cases timerfd with
  | expired s => cases h
  | disarmed => exact h
  | armed s => exact h

namespace TimerQueue

/-! ## §2 The statement -/

/-- If a timer is pending, the timerfd is armed, or has expired and is unread, and it was set to
    no more than what the earliest expiration asks for, or 100 microseconds. -/
def Wakes (q : TimerQueue) : Prop :=
  ∀ first rest, q.timers_ = first :: rest → ∃ setting, q.timerfd.setting = some setting ∧
    setting.it_value.nanos ≤ 1000 * max 100 (first.1 - setting.now)

/-- The condition on a step: a `handleRead` that takes the expiration of the timerfd while timers
    are pending finds one that is due. -/
def findsDue (q : TimerQueue) : Act → Bool
  | .handleRead now =>
    q.timers_.isEmpty || q.timers_.any (fun e => e.1 ≤ now) || !q.timerfd.unread
  | _ => true

/-! ## §3 The invariant -/

/-- The timerfd is not set later than the earliest expiration asks for. -/
def Bounded (q : TimerQueue) : Prop :=
  ∀ first rest setting, q.timers_ = first :: rest → q.timerfd.setting = some setting →
    setting.it_value.nanos ≤ 1000 * max 100 (first.1 - setting.now)

/-- If a timer is pending, the timerfd is set. -/
def Set (q : TimerQueue) : Prop := q.timers_ ≠ [] → q.timerfd.setting ≠ none

theorem wakes_iff (q : TimerQueue) : q.Wakes ↔ q.Bounded ∧ q.Set := by
  constructor
  · intro h
    refine ⟨fun first rest setting hfirst hsetting => ?_, fun hne hnone => ?_⟩
    · obtain ⟨setting', hsetting', hle⟩ := h first rest hfirst
      cases hsetting'.symm.trans hsetting
      exact hle
    · obtain ⟨first, rest, hfirst⟩ := List.exists_cons_of_ne_nil hne
      obtain ⟨setting, hsetting, -⟩ := h first rest hfirst
      cases hsetting.symm.trans hnone
  · intro h first rest hfirst
    have hne : q.timers_ ≠ [] := by
      rw [hfirst]
      exact List.cons_ne_nil first rest
    obtain ⟨setting, hsetting⟩ := Option.ne_none_iff_exists'.mp (h.2 hne)
    exact ⟨setting, hsetting, h.1 first rest setting hfirst hsetting⟩

/-- The timerfd between two actions: while a batch is being handled it may be disarmed. -/
structure Ready (q : TimerQueue) : Prop where
  bounded : q.Bounded
  set : q.phase.todo ++ q.phase.called = [] → q.Set

/-- A queue whose timerfd has just been set for its first entry. -/
theorem wakes_settime {q : TimerQueue} {first : Entry} {rest : List Entry}
    (hfirst : q.timers_ = first :: rest) {now : Int}
    (hset : q.timerfd = settime first.1 now) : q.Wakes := by
  intro first' rest' hfirst'
  rw [hfirst] at hfirst'
  cases hfirst'
  obtain ⟨setting, hsetting, hnow, hnanos⟩ := settime_setting first.1 now
  refine ⟨setting, hset ▸ hsetting, ?_⟩
  rw [hnow]
  exact Int.le_of_eq hnanos

/-- The last `if` of the loop of `reset` sets the timerfd. -/
theorem rearmed_wakes (q : TimerQueue) (now : Int) : (q.rearmed now).Wakes := by
  cases hfirst : q.timers_ with
  | nil =>
    intro first rest hcons
    rw [rearmed_timers_, hfirst] at hcons
    cases hcons
  | cons first rest =>
    have hkept : (q.rearmed now).timers_ = first :: rest := by
      rw [rearmed_timers_, hfirst]
    have hfd : (q.rearmed now).timerfd = settime first.1 now := by
      rw [rearmed, hfirst]
      rfl
    exact wakes_settime hkept hfd

/-- The first entry after an insertion that does not change the earliest expiration. -/
theorem first_of_not_changed {timers : List Entry} {e : Entry}
    (h : earliestChanged timers e.1 = false) :
    ∃ first rest first' rest', timers = first :: rest ∧ insertEntry e timers = first' :: rest' ∧
      first'.1 = first.1 := by
  cases timers with
  | nil => cases h
  | cons first rest =>
    rw [earliestChanged, decide_eq_false_iff_not] at h
    have hcases : (e.lt first = true ∧ insertEntry e (first :: rest) = e :: first :: rest) ∨
        (e.lt first = false ∧ ∃ rest', insertEntry e (first :: rest) = first :: rest') :=
      head_insertSorted e first rest
    rcases hcases with ⟨hlt, heq⟩ | ⟨-, rest', heq⟩
    · rw [Entry.lt_iff] at hlt
      exact ⟨first, rest, e, first :: rest, rfl, heq, by omega⟩
    · exact ⟨first, rest, first, rest', rfl, heq, rfl⟩

/-- The first entry after an insertion that changes it. -/
theorem first_of_changed {timers : List Entry} {e : Entry}
    (h : earliestChanged timers e.1 = true) : insertEntry e timers = e :: timers := by
  cases timers with
  | nil => rfl
  | cons first rest =>
    rw [earliestChanged, decide_eq_true_eq] at h
    have hlt : Entry.lt e first = true := Entry.lt_iff.mpr (.inl h)
    rw [insertEntry, insertSorted, if_pos hlt]

theorem added_of_changed (q : TimerQueue) (p : Nat) {request : Request} (now : Int)
    (h : earliestChanged q.timers_ request.when_ = true) :
    (q.added p request now).timerfd = settime request.when_ now :=
  if_pos h

theorem added_of_not_changed (q : TimerQueue) (p : Nat) {request : Request} (now : Int)
    (h : earliestChanged q.timers_ request.when_ = false) :
    (q.added p request now).timerfd = q.timerfd :=
  if_neg (by rw [h]; exact Bool.false_ne_true)

/-- `addTimer` sets the timerfd or leaves the earliest expiration as it was. -/
theorem Bounded.added {q : TimerQueue} (h : q.Bounded) (p : Nat) (request : Request) (now : Int) :
    (q.added p request now).Bounded := by
  cases hchanged : earliestChanged q.timers_ request.when_ with
  | true =>
    have hfirst : (q.added p request now).timers_ = (request.when_, p) :: q.timers_ :=
      first_of_changed hchanged
    exact ((wakes_iff _).mp (wakes_settime hfirst (added_of_changed q p now hchanged))).1
  | false =>
    obtain ⟨first, rest, first', rest', htimers, hinsert, hsame⟩ :=
      first_of_not_changed (e := (request.when_, p)) hchanged
    intro first'' rest'' setting hfirst hsetting
    have hfirst' : insertEntry (request.when_, p) q.timers_ = first'' :: rest'' := hfirst
    rw [hinsert] at hfirst'
    cases hfirst'
    rw [added_of_not_changed q p now hchanged] at hsetting
    rw [hsame]
    exact h first rest setting htimers hsetting

/-- After `addTimer` the timerfd is set if it was set, or if the new timer is the earliest. -/
theorem added_set_iff (q : TimerQueue) (p : Nat) (request : Request) (now : Int) :
    (q.added p request now).Set ↔
      earliestChanged q.timers_ request.when_ = true ∨ q.timerfd.setting ≠ none := by
  cases hchanged : earliestChanged q.timers_ request.when_ with
  | true =>
    refine iff_of_true (fun _ => ?_) (.inl rfl)
    obtain ⟨setting, hsetting, -⟩ := settime_setting request.when_ now
    rw [added_of_changed q p now hchanged, hsetting]
    exact Option.some_ne_none setting
  | false =>
    obtain ⟨-, -, first', rest', -, hinsert, -⟩ :=
      first_of_not_changed (e := (request.when_, p)) hchanged
    have hne : (q.added p request now).timers_ ≠ [] := by
      show insertEntry (request.when_, p) q.timers_ ≠ []
      rw [hinsert]
      exact List.cons_ne_nil first' rest'
    rw [Set, added_of_not_changed q p now hchanged]
    constructor
    · exact fun h => .inr (h hne)
    · exact fun h _ => h.resolve_left (by simp)

/-- The first entry that `getExpired` leaves is not before the first one. -/
theorem first_le_of_ascending {timers : List Entry} (h : Ascending Entry.lt timers) {first : Entry}
    {rest : List Entry} (hfirst : timers = first :: rest) {e : Entry} (he : e ∈ timers) :
    first.1 ≤ e.1 := by
  rw [hfirst] at he h
  rcases List.mem_cons.mp he with rfl | he
  · exact Int.le_refl _
  · have hlt := (List.pairwise_cons.mp h).1 e he
    rw [Entry.lt_iff] at hlt
    omega

/-- `handleRead` up to its loops. -/
theorem Ready.beginRead {q : TimerQueue} (h : q.Ready) (hinv : q.Inv)
    (hphase : q.phase = .outside) {now : Int} (hdue : q.findsDue (.handleRead now) = true) :
    (q.beginRead now).Ready := by
  have hsplit := expiredOf_append_unexpiredOf q.timers_ now
  have hset : q.Set := h.set (by rw [hphase]; rfl)
  constructor
  case bounded =>
    intro first rest setting hfirst hsetting
    have hsetting' : q.timerfd.setting = some setting := Timerfd.setting_of_read hsetting
    have hmem : first ∈ q.timers_ := by
      rw [← hsplit]
      have hfirst' : unexpiredOf q.timers_ now = first :: rest := hfirst
      exact List.mem_append_right _ (hfirst' ▸ List.mem_cons_self ..)
    obtain ⟨first₀, rest₀, hcons⟩ := List.exists_cons_of_ne_nil (List.ne_nil_of_mem hmem)
    have hle := first_le_of_ascending hinv.ascending hcons hmem
    have hbound := h.bounded first₀ rest₀ setting hcons hsetting'
    omega
  case set =>
    -- an empty batch: nothing was due, so the condition says that the read found nothing
    intro hempty hne
    have hnone : expiredOf q.timers_ now = [] := (List.append_eq_nil_iff.mp hempty).1
    rw [hnone, List.nil_append] at hsplit
    have hne' : q.timers_ ≠ [] := by
      rw [← hsplit]
      exact hne
    have hnotdue : ∀ e ∈ q.timers_, now < e.1 := by
      intro e he
      rw [← hsplit] at he
      exact ((mem_unexpiredOf hinv.ascending hinv.below_timers now e).mp he).2
    have hread : q.timerfd.unread = false := by
      simp only [findsDue, Bool.or_eq_true, List.isEmpty_iff, hne', List.any_eq_true,
        decide_eq_true_eq, Bool.not_eq_true', false_or] at hdue
      rcases hdue with ⟨e, he, hle⟩ | hread
      · have hlt := hnotdue e he
        omega
      · exact hread
    show q.timerfd.read.setting ≠ none
    rw [Timerfd.read_of_not_unread hread]
    exact hset hne'

/-- **One action** keeps the timerfd ready, if a `handleRead` finds something due. -/
theorem Ready.step {q q' : TimerQueue} {a : Act} (h : q.Ready) (hinv : q.Inv) (hs : Steps q a q')
    (hdue : q.findsDue a = true) : q'.Ready := by
  cases hs with
  | @addTimer p request now hphase hfree hp =>
    -- the timerfd is set again only if the new timer is the earliest one
    refine ⟨h.bounded.added p request now, fun hempty => (added_set_iff q p request now).mpr ?_⟩
    have hempty' : q.phase.todo ++ q.phase.called = [] := hempty
    cases htimers : q.timers_ with
    | nil => exact .inl rfl
    | cons first rest => exact .inr (h.set hempty' (by rw [htimers]; exact List.cons_ne_nil _ _))
  | @expire setting harmed =>
    refine ⟨fun first rest setting' hfirst hsetting => ?_, fun hempty hne => ?_⟩
    · refine h.bounded first rest setting' hfirst ?_
      rw [harmed]
      exact hsetting
    · -- an expiration that has not been read still counts as a wakeup
      exact Option.some_ne_none setting
  | handleRead hphase => exact h.beginRead hinv hphase hdue
  | @runTimer now called todo e t hphase ht =>
    refine ⟨h.bounded, fun hempty => ?_⟩
    -- the batch is not empty now: it is `reset` that will set the timerfd
    have hcalled := (List.append_eq_nil_iff.mp hempty).2
    exact absurd hcalled (List.append_ne_nil_of_right_ne_nil called (List.cons_ne_nil e []))
  | beginReset hphase =>
    refine ⟨h.bounded, fun hempty => h.set ?_⟩
    rw [hphase]
    exact hempty
  | restart hphase ht hrepeat =>
    obtain ⟨hbounded, hset⟩ := (wakes_iff _).mp (rearmed_wakes (q.restarted _ _ _) _)
    exact ⟨hbounded, fun _ => hset⟩
  | delete hphase ht hrepeat =>
    obtain ⟨hbounded, hset⟩ := (wakes_iff _).mp (rearmed_wakes (q.dropped _ _) _)
    exact ⟨hbounded, fun _ => hset⟩
  | endRead hphase =>
    refine ⟨h.bounded, fun _ => h.set ?_⟩
    rw [hphase]
    rfl

/-! ## §4 Runs -/

/-- A `handleRead` that takes the expiration of the timerfd while timers are pending, and finds
    none that is due, leaves them without a wakeup. -/
theorem early_read_loses_wakeup {q : TimerQueue} (h : q.Inv) (hphase : q.phase = .outside)
    {now : Int} (hdue : q.findsDue (.handleRead now) = false) :
    ∃ t, machine.run q [.handleRead now, .beginReset, .endRead] = some t ∧ t.phase = .outside ∧
      ¬t.Wakes := by
  simp only [findsDue, Bool.or_eq_false_iff, List.isEmpty_eq_false_iff, List.any_eq_false,
    decide_eq_true_eq, Bool.not_eq_false'] at hdue
  obtain ⟨⟨hne, hnotdue⟩, hunread⟩ := hdue
  have hnone : expiredOf q.timers_ now = [] := by
    rw [expiredOf_eq h.ascending h.below_timers, List.filter_eq_nil_iff]
    intro e he hle
    exact hnotdue e he (of_decide_eq_true hle)
  have hcalling : (q.beginRead now).phase = .calling now [] [] := by
    show Phase.calling now [] (expiredOf q.timers_ now) = _
    rw [hnone]
  have hsplit := expiredOf_append_unexpiredOf q.timers_ now
  rw [hnone, List.nil_append] at hsplit
  refine ⟨{ q.beginRead now with phase := .outside }, ?_, rfl, fun hwakes => ?_⟩
  · simp only [Machine.run, machine, enabled, step, hphase, hcalling, decide_true, if_true,
      Option.bind_some]
  · refine ((wakes_iff _).mp hwakes).2 ?_ ?_
    · show unexpiredOf q.timers_ now ≠ []
      rw [hsplit]
      exact hne
    · show q.timerfd.read.setting = none
      rw [Timerfd.read_of_unread hunread]
      rfl

/-- **A pending timer has a wakeup**, in every run in which each `handleRead` that takes the
    expiration of the timerfd while timers are pending finds one that is due: in every state
    outside `handleRead`, so after every `addTimer` there and after every `handleRead`. Right after
    an `addTimer` that a callback makes, it has one exactly if the new timer is the earliest or the
    timerfd is set already. A `handleRead` that does not meet the condition ends without one. -/
theorem timerQueue_wakes {as : List Act} {q : TimerQueue}
    (h : machine.ReachesAlong (fun q a => q.findsDue a = true) new as q) :
    (q.phase = .outside → q.Wakes) ∧
    (∀ p request now q', q.enabled (.addTimer p request now) = true →
      q.step (.addTimer p request now) = some q' →
      (q.phase = .outside → q'.Wakes) ∧
      (q'.Wakes ↔ earliestChanged q.timers_ request.when_ = true ∨ q.timerfd.setting ≠ none)) ∧
    ∀ now, q.phase = .outside → q.findsDue (.handleRead now) = false →
      ∃ t, machine.run q [.handleRead now, .beginReset, .endRead] = some t ∧ t.phase = .outside ∧
        ¬t.Wakes := by
  have hstart : new.Ready := by
    refine ⟨fun first rest setting hfirst => ?_, fun _ hne => absurd rfl hne⟩
    cases hfirst
  obtain ⟨hinv, hready⟩ := Machine.invariant_reaches_along (I := fun q => q.Inv ∧ q.Ready)
    ⟨inv_new, hstart⟩ (fun u a u' hu ha hc hstep =>
      have hsteps := hu.1.steps_of_step ha hstep
      ⟨hu.1.step hsteps, hu.2.step hu.1 hsteps hc⟩) h
  have hset : q.phase = .outside → q.Set := by
    intro hphase
    refine hready.set ?_
    rw [hphase]
    rfl
  refine ⟨fun hphase => (wakes_iff q).mpr ⟨hready.bounded, hset hphase⟩,
    fun p request now q' ha hstep => ?_,
    fun now hphase hdue => early_read_loses_wakeup hinv hphase hdue⟩
  have hadded : q' = q.added p request now :=
    Option.some.inj (hstep.symm.trans (addTimer_eq q p request now))
  subst hadded
  have hbounded := hready.bounded.added p request now
  have hiff : (q.added p request now).Wakes ↔
      earliestChanged q.timers_ request.when_ = true ∨ q.timerfd.setting ≠ none := by
    rw [wakes_iff, added_set_iff]
    exact and_iff_right hbounded
  refine ⟨fun hphase => hiff.mpr ?_, hiff⟩
  cases htimers : q.timers_ with
  | nil => exact .inl rfl
  | cons first rest =>
    exact .inr (hset hphase (by rw [htimers]; exact List.cons_ne_nil first rest))

/-- Two timers, one of which is due when the timerfd is read. -/
def steadyRun : List Act :=
  [.addTimer 8 ⟨1000, .zero⟩ 0, .addTimer 16 ⟨5000, .zero⟩ 0, .expire, .handleRead 1000, .runTimer,
    .beginReset, .resetTimer 1010 1010, .endRead]

theorem steadyRun_wakes :
    (machine.runAlong findsDue new steadyRun).map (fun q => (q.phase, q.timerfd)) =
      some (.outside, .armed ⟨⟨0, 3990000⟩, 1010⟩) ∧
    ∀ q, machine.runAlong findsDue new steadyRun = some q → q.Wakes := by
  have hrun : (machine.runAlong findsDue new steadyRun).map (fun q => (q.phase, q.timerfd)) =
      some (.outside, .armed ⟨⟨0, 3990000⟩, 1010⟩) := by
    decide +kernel
  refine ⟨hrun, fun q hq => ?_⟩
  rw [hq, Option.map_some, Option.some.injEq, Prod.mk.injEq] at hrun
  exact (timerQueue_wakes (Machine.reachesAlong_of_runAlong hq)).1 hrun.1

/-- The timerfd expires when the wall clock is one microsecond short of the expiration. -/
def earlyRun : List Act :=
  [.addTimer 8 ⟨1000, .zero⟩ 0, .expire, .handleRead 999, .beginReset, .endRead]

theorem earlyRun_loses_wakeup :
    ∃ q, machine.Reaches new earlyRun q ∧ q.phase = .outside ∧ q.timers_ = [(1000, 8)] ∧
      q.timerfd = .disarmed ∧ ¬q.Wakes := by
  have hrun : (machine.run new earlyRun).map (fun q => (q.phase, q.timers_, q.timerfd)) =
      some (.outside, [(1000, 8)], .disarmed) := by
    decide +kernel
  obtain ⟨q, hq, hfields⟩ := Option.map_eq_some_iff.mp hrun
  simp only [Prod.mk.injEq] at hfields
  obtain ⟨hphase, htimers, hfd⟩ := hfields
  refine ⟨q, Machine.reaches_of_run hq, hphase, htimers, hfd, fun hwakes => ?_⟩
  obtain ⟨setting, hsetting, -⟩ := hwakes (1000, 8) [] htimers
  rw [hfd] at hsetting
  cases hsetting

end TimerQueue

end RainWebServer.Util
