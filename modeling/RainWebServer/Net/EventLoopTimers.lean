import RainWebServer.Net.EventLoop
import RainWebServer.Util.TimerQueueEntries

/-!
# EventLoop: the Scheduling Calls

Embeds `runAt`, `runAfter` and `runEvery` of `include/net/EventLoop.h` and what the constructor in
`src/net/EventLoop.cc` does for them: nothing. The member `timerQueue_` is a `unique_ptr` that no
initialiser names and no function assigns, so it is null from the start, and every scheduling call
goes through a null pointer.

With a `TimerQueue` behind the pointer a call would add its timer (`adds_iff`).

## Main results

- `adds_iff` : a call adds its timer exactly if the loop has a `TimerQueue`
- `eventLoop_never_schedules` : no call on a loop that its constructor has built does
-/

namespace RainWebServer.Net

open RainWebServer.Lib RainWebServer.Util

variable {F T : Type}

/-! ## §1 The loop with its timer queue -/

/-- An `EventLoop`, with the member `timerQueue_`; `none` is null. -/
structure TimedLoop (F T : Type) where
  loop : EventLoop F T
  timerQueue_ : Option TimerQueue

/-- The constructor. -/
def TimedLoop.new : TimedLoop F T := ⟨EventLoop.new, none⟩

/-- A scheduling call. -/
inductive ScheduleCall where
  | runAt (timestamp : Int)
  | runAfter (waitTime : Seconds)
  | runEvery (interval : Seconds)
  deriving DecidableEq, Repr

/-- The arguments with which the call reaches `addTimer`, when it reads the clock at `now`. -/
def ScheduleCall.request (now : Int) : ScheduleCall → Request
  | .runAt timestamp => ⟨timestamp, .zero⟩
  | .runAfter waitTime => ⟨addTime now waitTime, .zero⟩
  | .runEvery interval => ⟨addTime now interval, interval⟩

/-- One execution of a scheduling call: its reading of the clock, the address of the `Timer`, and
    the reading of `resetTimerfd`. -/
structure Scheduling where
  call : ScheduleCall
  now : Int
  address : Nat
  resetNow : Int
  deriving DecidableEq, Repr

/-- What `addTimer` is called with. -/
def Scheduling.request (c : Scheduling) : Request := c.call.request c.now

/-! ## §2 The machine -/

/-- The loop's own actions, the scheduling calls, and what happens in the timer queue. -/
inductive TimedAct (F T : Type) where
  | loop (a : LoopAct F T)
  | schedule (c : Scheduling)
  | timer (a : TimerQueue.Act)

/-- The action is a scheduling call. -/
def TimedAct.IsCall : TimedAct F T → Prop
  | .schedule _ => True
  | .loop _ | .timer _ => False

namespace TimedLoop

/-- The loop's thread is in code that can call: outside `loop()`, in a handler or in a functor. -/
def onThread (s : TimedLoop F T) : Bool :=
  match s.loop.pc with
  | .notLooping | .inHandler _ | .inFunctor _ => !s.loop.ownWakeup
  | _ => false

/-- Which actions can be taken. -/
def enabled [DecidableEq T] (s : TimedLoop F T) : TimedAct F T → Bool
  | .loop a => s.loop.enabled a
  | .schedule c => s.onThread && match s.timerQueue_ with
    | none => true
    | some q => q.enabled (.addTimer c.address c.request c.resetNow)
  | .timer (.addTimer _ _ _) => false
  | .timer a => match s.timerQueue_ with
    | none => false
    | some q => q.enabled a

/-- `timerQueue_->addTimer`, which faults on null. -/
def schedule (s : TimedLoop F T) (c : Scheduling) : Option (TimedLoop F T) := do
  let q ← s.timerQueue_
  let q ← q.addTimer c.address c.request c.resetNow
  some { s with timerQueue_ := some q }

/-- The effect of an action. -/
def step [DecidableEq T] (s : TimedLoop F T) : TimedAct F T → Option (TimedLoop F T)
  | .loop a => some { s with loop := s.loop.step a }
  | .schedule c => s.schedule c
  | .timer a => do
    let q ← s.timerQueue_
    let q ← q.step a
    some { s with timerQueue_ := some q }

/-- The loop with its timers as a machine. -/
def machine [DecidableEq T] : Machine (TimedLoop F T) (TimedAct F T) := ⟨enabled, step⟩

/-! ## §3 What a call does -/

/-- The call returns, and it has added exactly one timer to the loop's queue, with the time and the
    interval that were asked for. -/
def Adds (s : TimedLoop F T) (c : Scheduling) : Prop :=
  ∃ t q q', s.schedule c = some t ∧ s.timerQueue_ = some q ∧ t.timerQueue_ = some q' ∧
    q'.requests = q.requests ++ [c.request] ∧
    q'.timers_.Perm ((c.request.when_, c.address) :: q.timers_) ∧
    q'.heap = Function.update q.heap c.address
      (some (Timer.new q.requests.length c.request.when_ c.request.interval))

/-- **A call adds its timer exactly if the loop has a `TimerQueue`.** -/
theorem adds_iff [DecidableEq T] {s : TimedLoop F T} {c : Scheduling}
    (hqueue : ∀ q, s.timerQueue_ = some q → q.Inv) (hc : s.enabled (.schedule c) = true) :
    s.Adds c ↔ s.timerQueue_ ≠ none := by
  cases hq : s.timerQueue_ with
  | none =>
    refine iff_of_false ?_ (fun h => h rfl)
    rintro ⟨t, q, q', -, hsome, -⟩
    rw [hq] at hsome
    cases hsome
  | some q =>
    refine iff_of_true ?_ (Option.some_ne_none q)
    simp only [enabled, hq, Bool.and_eq_true, TimerQueue.enabled, Option.isNone_iff_eq_none] at hc
    have hnot := (hqueue q hq).not_mem_of_free hc.2.1.2 c.request.when_
    refine ⟨{ s with timerQueue_ := some (q.added c.address c.request c.resetNow) }, q,
      q.added c.address c.request c.resetNow, ?_, hq, rfl, rfl, ?_, rfl⟩
    · simp only [schedule, hq, TimerQueue.addTimer_eq, Option.bind_eq_bind, Option.bind_some]
    · exact insertSorted_perm Entry.strictTotal hnot

/-! ## §4 Runs -/

/-- **No call schedules anything.** In every run of a loop that its constructor has built,
    `timerQueue_` is null: no scheduling call has returned, and every one that can be made faults
    and adds no timer. -/
theorem eventLoop_never_schedules [DecidableEq T] {as : List (TimedAct F T)} {s : TimedLoop F T}
    (h : machine.Reaches TimedLoop.new as s) :
    s.timerQueue_ = none ∧ (∀ a ∈ as, ¬a.IsCall) ∧
      ∀ c, s.enabled (.schedule c) = true → s.step (.schedule c) = none ∧ ¬s.Adds c := by
  have hnull : s.timerQueue_ = none ∧ ∀ a ∈ as, ¬a.IsCall := by
    induction h with
    | refl => exact ⟨rfl, fun a ha => (by cases ha)⟩
    | @snoc as t u a _ he hs ih =>
      obtain ⟨hnull, has⟩ := ih
      -- an action that is not one of the loop's own needs the queue
      cases a with
      | loop a =>
        cases hs
        refine ⟨hnull, fun b hb => ?_⟩
        rcases List.mem_append.mp hb with hb | hb
        · exact has b hb
        · rw [List.mem_singleton.mp hb]
          exact id
      | schedule c =>
        have hs' : t.schedule c = some u := hs
        rw [schedule, hnull] at hs'
        cases hs'
      | timer a =>
        have hs' : t.step (.timer a) = some u := hs
        rw [step, hnull] at hs'
        cases hs'
  refine ⟨hnull.1, hnull.2, fun c hc => ⟨?_, fun hadds => ?_⟩⟩
  · show s.schedule c = none
    rw [schedule, hnull.1]
    rfl
  · refine (adds_iff (fun q hq => ?_) hc).mp hadds hnull.1
    rw [hnull.1] at hq
    cases hq

/-- `runAfter(1.0, cb)` on a new loop. -/
def firstCall : Scheduling := ⟨.runAfter ⟨true, 1000000⟩, 0, 8, 0⟩

theorem firstCall_faults :
    (TimedLoop.new : TimedLoop Unit Unit).enabled (.schedule firstCall) = true ∧
    machine.run (TimedLoop.new : TimedLoop Unit Unit) [.schedule firstCall] = none ∧
    ¬(TimedLoop.new : TimedLoop Unit Unit).Adds firstCall := by
  refine ⟨by decide, rfl, ?_⟩
  rintro ⟨t, q, q', -, hq, -⟩
  cases hq

/-- The loop is running and in the handler of a channel when it comes to the call. -/
def handlerRun : List (TimedAct Unit Unit) :=
  [.loop .loop, .loop .advance, .loop (.pollReturns [.other]), .loop .advance]

theorem handlerRun_never_schedules :
    ((machine.run (TimedLoop.new : TimedLoop Unit Unit) handlerRun).map fun s =>
      (s.timerQueue_.isNone, s.enabled (.schedule firstCall))) = some (true, true) ∧
    ∀ s, machine.run (TimedLoop.new : TimedLoop Unit Unit) handlerRun = some s →
      s.step (.schedule firstCall) = none ∧ ¬s.Adds firstCall := by
  have hrun : ((machine.run (TimedLoop.new : TimedLoop Unit Unit) handlerRun).map fun s =>
      (s.timerQueue_.isNone, s.enabled (.schedule firstCall))) = some (true, true) := by
    decide +kernel
  refine ⟨hrun, fun s hs => ?_⟩
  rw [hs, Option.map_some, Option.some.injEq, Prod.mk.injEq] at hrun
  exact (eventLoop_never_schedules (Machine.reaches_of_run hs)).2.2 firstCall hrun.2

end TimedLoop

end RainWebServer.Net
