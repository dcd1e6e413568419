import RainWebServer.Net.EventLoop

/-!
# EventLoopThread: Starting a Loop and Quitting It

Embeds `src/net/EventLoopThread.cc`: `startLoop`, `threadFunc`, and the call of `quit` that
`~EventLoopThread` makes before `join`, over the `EventLoop` that `threadFunc` has on its stack.

`threadFunc` publishes the pointer `loop_` before it calls `loop()`, and `loop()` begins by storing
`false` into `quit_`. A thread that has the pointer can call `quit` between the two.

The machine takes the pieces of `threadFunc` one by one, and inside `loop()` those of `EventLoop`.
Here `poller_->poll` has two pieces, so that the polls started can be counted. A call on the loop
after `threadFunc` has destroyed it is a fault.

## Main results

- `quit_polls_at_most_once_iff` : after a call of `quit` the loop's thread starts at most one more
  poll, and a wakeup ends it, exactly if `loop()` has stored `false` into `quit_` before the call
- `exists_polls_of_published` : otherwise it can start any number of polls
-/

namespace RainWebServer.Net

open RainWebServer.Lib

variable {F T : Type}

/-! ## §1 The thread and its loop -/

/-- Where the new thread is. -/
inductive ThreadPc where
  /-- Before `thread_.start()`. -/
  | notStarted
  /-- Before `EventLoop loop;`. -/
  | started
  /-- In `callback_(&loop)`. -/
  | inCallback
  /-- Before `loop_ = &loop`. -/
  | publishing
  /-- Before `loop.loop()`. -/
  | published
  | inLoop
  /-- Before `loop_ = nullptr`. -/
  | afterLoop
  /-- Before the destructor of `loop`. -/
  | leaving
  | destroyed
  deriving DecidableEq, Repr

/-- The members of `EventLoopThread` and the loop on the new thread's stack, where the thread is,
    whether `startLoop` has returned, whether the thread is in the poller's wait, and the number of
    polls it has started. -/
structure EventLoopThread (F T : Type) where
  callback_ : Bool
  /-- `loop_` is not null. -/
  loop_ : Bool
  loop : EventLoop F T
  thread : ThreadPc
  returned : Bool
  inPoll : Bool
  polls : Nat

/-- The constructor, with or without a thread-init callback. -/
def EventLoopThread.new (callback_ : Bool) : EventLoopThread F T :=
  ⟨callback_, false, EventLoop.new, .notStarted, false, false, 0⟩

/-- What happens next. -/
inductive ThreadAct (F T : Type) where
  /-- `thread_.start()` in `startLoop`. -/
  | start
  /-- `startLoop` returns `loop_`. -/
  | startLoopReturns
  /-- The new thread goes on to its next piece of `threadFunc`. -/
  | threadFunc
  /-- The new thread starts the wait in `poller_->poll`. -/
  | startPoll
  /-- An action of the loop: a piece of `loop()`, or a call by any thread. -/
  | loop (a : LoopAct F T)

namespace EventLoopThread

/-- The loop has been constructed. -/
def constructed (s : EventLoopThread F T) : Bool :=
  match s.thread with
  | .notStarted | .started => false
  | _ => true

/-- The thread can call functions of the loop. The new thread does so from `callback_` and from
    handlers and functors. -/
def mayCall (s : EventLoopThread F T) : Caller T → Bool
  | .loopThread => s.thread = .inCallback || (s.thread = .inLoop && s.loop.mayCall .loopThread)
  | .external t => s.constructed && s.loop.mayCall (.external t)

/-- Which actions can be taken. -/
def enabled (s : EventLoopThread F T) : ThreadAct F T → Bool
  | .start => s.thread = .notStarted
  | .startLoopReturns => s.loop_ && !s.returned
  | .threadFunc => match s.thread with
    | .notStarted | .inLoop | .destroyed => false
    | _ => true
  | .startPoll => match s.loop.pc with
    | .polling => s.thread = .inLoop && !s.inPoll
    | _ => false
  | .loop .loop => false
  | .loop (.pollReturns _) => s.inPoll
  | .loop .advance => s.thread = .inLoop && s.loop.enabled .advance
  | .loop (.queueInLoop caller _) | .loop (.runInLoop caller _) | .loop (.quit caller) =>
    s.mayCall caller
  | .loop (.wakeup caller) => s.loop.enabled (.wakeup caller)

variable [DecidableEq T]

/-- The next piece of `threadFunc`. -/
def threadFunc (s : EventLoopThread F T) : EventLoopThread F T :=
  match s.thread with
  | .notStarted | .inLoop | .destroyed => s
  | .started =>
    { s with loop := EventLoop.new, thread := if s.callback_ then .inCallback else .publishing }
  | .inCallback => { s with thread := .publishing }
  | .publishing => { s with loop_ := true, thread := .published }
  | .published => { s with loop := s.loop.step .loop, thread := .inLoop }
  | .afterLoop => { s with loop_ := false, thread := .leaving }
  | .leaving => { s with thread := .destroyed }

/-- The place in `threadFunc` after the loop's thread has gone on in `loop()`. -/
def afterAdvance (pc : LoopPc F) : ThreadPc :=
  match pc with
  | .notLooping => .afterLoop
  | _ => .inLoop

/-- An action of the loop that exists. -/
def loopStep (s : EventLoopThread F T) (a : LoopAct F T) : EventLoopThread F T :=
  let s' := { s with loop := s.loop.step a }
  match a with
  | .pollReturns _ => { s' with inPoll := false }
  | .advance => { s' with thread := afterAdvance s'.loop.pc }
  | _ => s'

/-- The effect of an action; a call on a destroyed loop is a fault. -/
def step (s : EventLoopThread F T) : ThreadAct F T → Option (EventLoopThread F T)
  | .start => some { s with thread := .started }
  | .startLoopReturns => some { s with returned := true }
  | .threadFunc => some s.threadFunc
  | .startPoll => some { s with inPoll := true, polls := s.polls + 1 }
  | .loop a => if s.thread = .destroyed then none else some (s.loopStep a)

/-- The thread, its loop and their callers as a machine. -/
def machine : Machine (EventLoopThread F T) (ThreadAct F T) := ⟨enabled, step⟩

end EventLoopThread

/-! ## §2 What an action of the loop leaves -/

/-- The action is a piece of a call that some thread makes on the loop. -/
def LoopAct.isCall : LoopAct F T → Bool
  | .queueInLoop _ _ | .runInLoop _ _ | .quit _ | .wakeup _ => true
  | .loop | .pollReturns _ | .advance => false

/-- The external thread that begins a call. -/
def LoopAct.externalCaller : LoopAct F T → Option T
  | .queueInLoop (.external t) _ | .runInLoop (.external t) _ | .quit (.external t) => some t
  | _ => none

namespace EventLoop

/-- The loop's thread changes `quit_` only at the head of `loop()`. -/
theorem quit_advance (s : EventLoop F T) : s.advance.quit_ = s.quit_ := by
  unfold EventLoop.advance
  split <;> try rfl
  split <;> rfl

/-- The flag `callingPendingFunctors_` follows the loop's thread. -/
theorem calling_advance {s : EventLoop F T} (h : s.callingPendingFunctors_ = s.pc.calling) :
    s.advance.callingPendingFunctors_ = s.advance.pc.calling := by
  unfold EventLoop.advance
  split <;> simp_all [LoopPc.calling, EventLoop.setPc, EventLoop.handleWakeupRead]
  split <;> rfl

/-- The loop's thread comes to `poll` only from a test that finds `quit_` false. -/
theorem pc_advance_of_quit {s : EventLoop F T} (hquit : s.quit_ = true) (hpc : s.pc ≠ .polling) :
    s.advance.pc ≠ .polling := by
  unfold EventLoop.advance
  split <;> simp_all [EventLoop.setPc, EventLoop.handleWakeupRead]

/-- What a call on the loop leaves: the loop's thread where it is, a `quit_` that is set, and all
    that is in the eventfd. -/
structure Keeps (s s' : EventLoop F T) : Prop where
  pc : s'.pc = s.pc
  calling : s'.callingPendingFunctors_ = s.callingPendingFunctors_
  quit : s.quit_ = true → s'.quit_ = true
  counter : s.counter ≤ s'.counter

theorem Keeps.refl (s : EventLoop F T) : Keeps s s := ⟨rfl, rfl, id, Nat.le_refl _⟩

theorem keeps_wakeup (s : EventLoop F T) : Keeps s s.wakeup := by
  unfold EventLoop.wakeup
  split
  · exact ⟨rfl, rfl, id, Nat.le_succ _⟩
  · exact .refl s

variable [DecidableEq T]

theorem keeps_queueInLoop (s : EventLoop F T) (caller : Caller T) (cb : F) :
    Keeps s (s.queueInLoop caller cb) := by
  unfold EventLoop.queueInLoop
  cases caller with
  | loopThread =>
    simp only
    split
    · exact ⟨rfl, rfl, id, Nat.le_refl _⟩
    · exact ⟨rfl, rfl, id, Nat.le_refl _⟩
  | external t => exact ⟨rfl, rfl, id, Nat.le_refl _⟩

theorem keeps_step {s : EventLoop F T} {a : LoopAct F T} (ha : a.isCall = true) :
    Keeps s (s.step a) := by
  cases a with
  | loop => cases ha
  | pollReturns active => cases ha
  | advance => cases ha
  | queueInLoop caller cb => exact s.keeps_queueInLoop caller cb
  | runInLoop caller cb =>
    cases caller with
    | loopThread => exact ⟨rfl, rfl, id, Nat.le_refl _⟩
    | external t => exact s.keeps_queueInLoop (.external t) cb
  | quit caller =>
    cases caller with
    | loopThread => exact ⟨rfl, rfl, fun _ => rfl, Nat.le_refl _⟩
    | external t => exact ⟨rfl, rfl, fun _ => rfl, Nat.le_refl _⟩
  | wakeup caller =>
    obtain ⟨hpc, hcalling, hquit, hcounter⟩ := s.keeps_wakeup
    cases caller with
    | loopThread => exact ⟨hpc, hcalling, hquit, hcounter⟩
    | external t => exact ⟨hpc, hcalling, hquit, hcounter⟩

/-- The loop's own thread is left with a write to do only when it calls from a functor. -/
theorem ownWakeup_step {s : EventLoop F T} {a : LoopAct F T} (ha : a.isCall = true)
    (h : (s.step a).ownWakeup = true) :
    s.ownWakeup = true ∨ s.callingPendingFunctors_ = true := by
  -- only `queueInLoop` leaves a write behind, and only from a functor
  have hqueue : ∀ caller cb, (s.queueInLoop caller cb).ownWakeup = true →
      s.ownWakeup = true ∨ s.callingPendingFunctors_ = true := by
    intro caller cb hown
    cases caller with
    | external t => exact .inl hown
    | loopThread =>
      cases hcalling : s.callingPendingFunctors_ with
      | true => exact .inr rfl
      | false =>
        simp [EventLoop.queueInLoop, EventLoop.isInLoopThread, EventLoop.push, hcalling] at hown
        exact .inl hown
  cases a with
  | loop => cases ha
  | pollReturns active => cases ha
  | advance => cases ha
  | queueInLoop caller cb => exact hqueue caller cb h
  | runInLoop caller cb =>
    cases caller with
    | loopThread => exact .inl h
    | external t => exact hqueue (.external t) cb h
  | quit caller =>
    cases caller with
    | loopThread => exact .inl h
    | external t => exact .inl h
  | wakeup caller =>
    cases caller with
    | loopThread => cases h
    | external t =>
      have hown : s.wakeup.ownWakeup = true := h
      rw [s.wakeup_frame] at hown
      exact .inl hown

/-- The eventfd is readable, or `t` is in `quit` and about to write to it. -/
def WokenBy (s : EventLoop F T) (t : T) : Prop := 0 < s.counter ∨ s.external t = .quitting

/-- A call keeps the wakeup of a thread in `quit`, if each thread ends one call before the next. -/
theorem WokenBy.step {s : EventLoop F T} {t : T} {a : LoopAct F T} (h : s.WokenBy t)
    (ha : a.isCall = true) (hidle : a.externalCaller = some t → s.external t = .idle) :
    (s.step a).WokenBy t := by
  rcases h with hpos | hquitting
  · exact .inl (Nat.lt_of_lt_of_le hpos (keeps_step ha).counter)
  · -- the thread is inside `quit`, so the call is another thread's or the write it has come to
    have hother : ∀ u pc, a.externalCaller = some u →
        Function.update s.external u pc t = .quitting := by
      intro u pc hu
      have hne : t ≠ u := by
        rintro rfl
        rw [hidle hu] at hquitting
        cases hquitting
      rw [Function.update_of_ne hne, hquitting]
    have hown : ∀ cb, (s.queueInLoop .loopThread cb).external = s.external := by
      intro cb
      unfold EventLoop.queueInLoop
      simp only
      split
      · rfl
      · rfl
    cases a with
    | loop => cases ha
    | pollReturns active => cases ha
    | advance => cases ha
    | queueInLoop caller cb =>
      cases caller with
      | loopThread => exact .inr ((congrFun (hown cb) t).trans hquitting)
      | external u => exact .inr (hother u _ rfl)
    | runInLoop caller cb =>
      cases caller with
      | loopThread => exact .inr hquitting
      | external u => exact .inr (hother u _ rfl)
    | quit caller =>
      cases caller with
      | loopThread => exact .inr hquitting
      | external u => exact .inr (hother u _ rfl)
    | wakeup caller =>
      cases caller with
      | loopThread => exact .inl s.counter_wakeup_pos
      | external u => exact .inl s.counter_wakeup_pos

end EventLoop

/-! ## §3 The invariant -/

/-- `loop_` has been published. -/
def ThreadPc.hasPublished : ThreadPc → Bool
  | .notStarted | .started | .inCallback | .publishing => false
  | _ => true

/-- `loop()` has stored `false` into `quit_`. -/
def ThreadPc.hasEntered : ThreadPc → Bool
  | .notStarted | .started | .inCallback | .publishing | .published => false
  | _ => true

namespace EventLoopThread

/-- The invariant of the thread. -/
structure Inv (s : EventLoopThread F T) : Prop where
  outside : s.thread ≠ .inLoop → s.loop.pc = .notLooping
  calling : s.loop.callingPendingFunctors_ = s.loop.pc.calling
  own : s.loop.ownWakeup = true → s.loop.pc.calling = true
  inPoll : s.inPoll = true → s.thread = .inLoop ∧ s.loop.pc = .polling
  published : s.loop_ = true ∨ s.returned = true → s.thread.hasPublished = true

variable [DecidableEq T]

/-- A call on the loop keeps the invariant. -/
theorem Inv.call {s : EventLoopThread F T} (h : s.Inv) {a : LoopAct F T} (ha : a.isCall = true) :
    Inv { s with loop := s.loop.step a } := by
  obtain ⟨hpc, hcalling, -, -⟩ := EventLoop.keeps_step (s := s.loop) ha
  refine ⟨fun hout => hpc.trans (h.outside hout), ?_, fun hown => ?_, fun hpoll => ?_, h.published⟩
  · show (s.loop.step a).callingPendingFunctors_ = (s.loop.step a).pc.calling
    rw [hpc, hcalling, h.calling]
  · show (s.loop.step a).pc.calling = true
    rw [hpc]
    rcases EventLoop.ownWakeup_step ha hown with hown | hcalls
    · exact h.own hown
    · exact h.calling.symm.trans hcalls
  · exact ⟨(h.inPoll hpoll).1, hpc.trans (h.inPoll hpoll).2⟩

theorem loopStep_call (s : EventLoopThread F T) {a : LoopAct F T} (ha : a.isCall = true) :
    s.loopStep a = { s with loop := s.loop.step a } := by
  cases a with
  | loop => cases ha
  | pollReturns active => cases ha
  | advance => cases ha
  | _ => rfl

/-- A piece of `threadFunc` keeps the invariant. -/
theorem Inv.threadFunc {s : EventLoopThread F T} (h : s.Inv) : s.threadFunc.Inv := by
  have hpoll : s.thread ≠ .inLoop → ∀ {P : Prop}, s.inPoll = true → P :=
    fun hout _ hpoll => absurd (h.inPoll hpoll).1 hout
  unfold EventLoopThread.threadFunc
  cases hthread : s.thread with
  | notStarted => exact h
  | inLoop => exact h
  | destroyed => exact h
  | started =>
    -- the loop is constructed here, and nobody has its address yet
    refine ⟨fun _ => rfl, rfl, fun hown => (by cases hown), hpoll (by simp [hthread]), fun hp => ?_⟩
    have hp' := h.published hp
    rw [hthread] at hp'
    cases hp'
  | inCallback =>
    refine ⟨fun _ => h.outside (by simp [hthread]), h.calling, h.own, hpoll (by simp [hthread]),
      fun hp => ?_⟩
    have hp' := h.published hp
    rw [hthread] at hp'
    cases hp'
  | publishing =>
    exact ⟨fun _ => h.outside (by simp [hthread]), h.calling, h.own, hpoll (by simp [hthread]),
      fun _ => rfl⟩
  | published =>
    -- `loop()` is entered with what callers have left in the loop
    have hpc := h.outside (by simp [hthread])
    have hcalling := h.calling
    have hown := h.own
    rw [hpc] at hcalling hown
    exact ⟨fun hout => absurd rfl hout, hcalling, hown, hpoll (by simp [hthread]), fun _ => rfl⟩
  | afterLoop =>
    exact ⟨fun _ => h.outside (by simp [hthread]), h.calling, h.own, hpoll (by simp [hthread]),
      fun _ => rfl⟩
  | leaving =>
    exact ⟨fun _ => h.outside (by simp [hthread]), h.calling, h.own, hpoll (by simp [hthread]),
      fun _ => rfl⟩

/-- A piece of `loop()` keeps the invariant. -/
theorem Inv.advance {s : EventLoopThread F T} (h : s.Inv)
    (he : s.loop.enabled .advance = true) : (s.loopStep .advance).Inv := by
  -- a write that a functor's call has left comes first
  have hown : s.loop.ownWakeup = false := by
    cases hown : s.loop.ownWakeup with
    | false => rfl
    | true =>
      revert he
      simp only [EventLoop.enabled, hown]
      split <;> simp
  -- and `poll` returns by an action of its own
  have hnpoll : s.loop.pc ≠ .polling := by
    intro hpc
    simp [EventLoop.enabled, hpc] at he
  have hown' : s.loop.advance.ownWakeup = false := by
    rw [← hown]
    unfold EventLoop.advance
    split <;> try rfl
    split <;> rfl
  refine ⟨fun hout => ?_, EventLoop.calling_advance h.calling, fun ho => ?_, fun hpoll => ?_,
    fun _ => ?_⟩
  · show s.loop.advance.pc = .notLooping
    have hout' : afterAdvance s.loop.advance.pc ≠ .inLoop := hout
    cases hpc : s.loop.advance.pc with
    | notLooping => rfl
    | _ =>
      rw [hpc] at hout'
      exact absurd rfl hout'
  · have ho' : s.loop.advance.ownWakeup = true := ho
    rw [hown'] at ho'
    cases ho'
  · exact absurd (h.inPoll hpoll).2 hnpoll
  · show (afterAdvance s.loop.advance.pc).hasPublished = true
    cases s.loop.advance.pc <;> rfl

/-- Every step keeps the invariant. -/
theorem Inv.step {s u : EventLoopThread F T} {a : ThreadAct F T} (h : s.Inv)
    (he : s.enabled a = true) (hs : s.step a = some u) : u.Inv := by
  cases a with
  | start =>
    cases hs
    have hthread : s.thread = .notStarted := by simpa [EventLoopThread.enabled] using he
    refine ⟨fun _ => h.outside (by simp [hthread]), h.calling, h.own, fun hpoll => ?_, fun hp => ?_⟩
    · exact absurd (h.inPoll hpoll).1 (by simp [hthread])
    · have hp' := h.published hp
      rw [hthread] at hp'
      cases hp'
  | startLoopReturns =>
    cases hs
    have hloop : s.loop_ = true := by
      simp only [EventLoopThread.enabled, Bool.and_eq_true] at he
      exact he.1
    exact ⟨h.outside, h.calling, h.own, h.inPoll, fun _ => h.published (.inl hloop)⟩
  | threadFunc =>
    cases hs
    exact h.threadFunc
  | startPoll =>
    cases hs
    simp only [EventLoopThread.enabled] at he
    split at he
    · rename_i hpc
      simp only [Bool.and_eq_true, decide_eq_true_eq] at he
      exact ⟨h.outside, h.calling, h.own, fun _ => ⟨he.1, hpc⟩, h.published⟩
    · cases he
  | loop a =>
    simp only [EventLoopThread.step] at hs
    split at hs
    · cases hs
    · cases hs
      cases a with
      | loop => cases he
      | pollReturns active =>
        -- a poll that returns was started inside of `loop()`
        obtain ⟨hin, hpc⟩ := h.inPoll he
        have hcalling := h.calling
        have hown := h.own
        rw [hpc] at hcalling hown
        refine ⟨fun hout => absurd hin hout, hcalling, hown, fun hpoll => (by cases hpoll),
          h.published⟩
      | advance =>
        simp only [EventLoopThread.enabled, Bool.and_eq_true, decide_eq_true_eq] at he
        exact h.advance he.2
      | _ => exact h.call rfl

omit [DecidableEq T] in
theorem inv_new (callback_ : Bool) : (new callback_ : EventLoopThread F T).Inv :=
  ⟨fun _ => rfl, rfl, fun h => (by cases h), fun h => (by cases h), fun h => by simp [new] at h⟩

/-- The invariant holds in every state reached. -/
theorem inv_reaches {callback_ : Bool} {as : List (ThreadAct F T)} {s : EventLoopThread F T}
    (h : machine.Reaches (new callback_) as s) : s.Inv :=
  h.preserves (fun _ _ _ hI he hs => Inv.step hI he hs) (inv_new callback_)

/-! ## §4 After a quit that is not lost -/

/-- Thread `t` has called `quit`, after `loop()` had stored `false` into `quit_`, when the loop's
    thread had started `n` polls. -/
structure Quitting (t : T) (n : Nat) (s : EventLoopThread F T) : Prop where
  inv : s.Inv
  entered : s.thread.hasEntered = true
  quit : s.loop.quit_ = true
  polls : s.polls ≤ n + 1
  /-- Before the wait, the one poll has not been started. -/
  ahead : s.loop.pc = .polling → s.inPoll = false → s.polls ≤ n
  woken : s.loop.pc = .polling → s.loop.WokenBy t

omit [DecidableEq T] in
/-- An external thread ends one call before it begins the next. -/
theorem idle_of_enabled {s : EventLoopThread F T} {t : T} {a : LoopAct F T}
    (he : s.enabled (.loop a) = true) (ha : a.externalCaller = some t) :
    s.loop.external t = .idle := by
  have hcall : s.mayCall (.external t) = true → s.loop.external t = .idle := by
    intro hmay
    simp only [mayCall, EventLoop.mayCall, Bool.and_eq_true, decide_eq_true_eq] at hmay
    exact hmay.2
  cases a with
  | queueInLoop caller cb =>
    cases caller with
    | loopThread => cases ha
    | external u =>
      cases ha
      exact hcall he
  | runInLoop caller cb =>
    cases caller with
    | loopThread => cases ha
    | external u =>
      cases ha
      exact hcall he
  | quit caller =>
    cases caller with
    | loopThread => cases ha
    | external u =>
      cases ha
      exact hcall he
  | _ => cases ha

/-- The call itself. -/
theorem quitting_quit {s : EventLoopThread F T} (h : s.Inv) (t : T)
    (hentered : s.thread.hasEntered = true) :
    Quitting t s.polls (s.loopStep (.quit (.external t))) where
  inv := h.call rfl
  entered := hentered
  quit := rfl
  polls := Nat.le_succ _
  ahead _ _ := Nat.le_refl _
  woken _ := .inr (Function.update_self t _ _)

/-- Every step of a run after the call keeps the bound on the polls. -/
theorem Quitting.step {t : T} {n : Nat} {s u : EventLoopThread F T} {a : ThreadAct F T}
    (h : Quitting t n s) (he : s.enabled a = true) (hs : s.step a = some u) : Quitting t n u := by
  have hinv := h.inv.step he hs
  cases a with
  | start =>
    have hthread : s.thread = .notStarted := by simpa [EventLoopThread.enabled] using he
    have hentered := h.entered
    rw [hthread] at hentered
    cases hentered
  | startLoopReturns =>
    cases hs
    exact ⟨hinv, h.entered, h.quit, h.polls, h.ahead, h.woken⟩
  | threadFunc =>
    cases hs
    -- past the head of `loop()` only the end of `threadFunc` is left
    have hentered := h.entered
    revert hinv he
    unfold EventLoopThread.threadFunc
    cases hthread : s.thread with
    | afterLoop => exact fun _ hinv => ⟨hinv, rfl, h.quit, h.polls, h.ahead, h.woken⟩
    | leaving => exact fun _ hinv => ⟨hinv, rfl, h.quit, h.polls, h.ahead, h.woken⟩
    | inLoop => exact fun _ _ => h
    | destroyed => exact fun _ _ => h
    | _ =>
      rw [hthread] at hentered
      cases hentered
  | startPoll =>
    cases hs
    simp only [EventLoopThread.enabled] at he
    split at he
    · rename_i hpc
      simp only [Bool.and_eq_true, Bool.not_eq_true'] at he
      -- this is the one poll that the call could not prevent
      have hpolls := h.ahead hpc he.2
      exact ⟨hinv, h.entered, h.quit, Nat.succ_le_succ hpolls, fun _ hout => (by cases hout),
        h.woken⟩
    · cases he
  | loop a =>
    simp only [EventLoopThread.step] at hs
    split at hs
    · cases hs
    · rename_i halive
      cases hs
      have hcall : a.isCall = true → (a.externalCaller = some t → s.loop.external t = .idle) →
          Quitting t n (s.loopStep a) := by
        intro ha hidle
        rw [loopStep_call s ha] at hinv ⊢
        obtain ⟨hpc, -, hquit, -⟩ := EventLoop.keeps_step (s := s.loop) ha
        refine ⟨hinv, h.entered, hquit h.quit, h.polls, fun hp => ?_, fun hp => ?_⟩
        · exact h.ahead (hpc.symm.trans hp)
        · exact (h.woken (hpc.symm.trans hp)).step ha hidle
      cases a with
      | loop => cases he
      | pollReturns active =>
        exact ⟨hinv, h.entered, h.quit, h.polls, fun hp => (by cases hp), fun hp => (by cases hp)⟩
      | advance =>
        simp only [EventLoopThread.enabled, Bool.and_eq_true, decide_eq_true_eq] at he
        have hnpoll : s.loop.pc ≠ .polling := by
          intro hpc
          simp [EventLoop.enabled, hpc] at he
        -- the test of `quit_` now ends `loop()`
        have hleaves := EventLoop.pc_advance_of_quit h.quit hnpoll
        refine ⟨hinv, ?_, (s.loop.quit_advance).trans h.quit, h.polls, fun hp => absurd hp hleaves,
          fun hp => absurd hp hleaves⟩
        show (afterAdvance s.loop.advance.pc).hasEntered = true
        cases s.loop.advance.pc <;> rfl
      | _ => exact hcall rfl (idle_of_enabled he)

/-! ## §5 After a quit that is lost -/

/-- The loop's thread is at the test of `quit_`, and finds it false. -/
structure AtTest (s : EventLoopThread F T) : Prop where
  thread : s.thread = .inLoop
  pc : s.loop.pc = .loopTest
  quit : s.loop.quit_ = false
  own : s.loop.ownWakeup = false
  inPoll : s.inPoll = false

/-- The loop's thread takes one piece of `loop()` and stays in it. -/
theorem advance_reaches {s : EventLoopThread F T} {l : EventLoop F T} (hin : s.thread = .inLoop)
    (hown : s.loop.ownWakeup = false) (hpc : s.loop.pc ≠ .polling) (hnext : s.loop.advance = l)
    (hstays : afterAdvance l.pc = .inLoop) :
    machine.Reaches s [.loop .advance] { s with loop := l } := by
  subst hnext
  have he : s.loop.enabled .advance = true := by
    cases hp : s.loop.pc with
    | polling => exact absurd hp hpc
    | notLooping =>
      have hsame : s.loop.advance = s.loop := by simp [EventLoop.advance, hp]
      rw [hsame, hp] at hstays
      cases hstays
    | _ => simp [EventLoop.enabled, hp, hown]
  refine Machine.Reaches.cons ?_ ?_ .refl
  · show s.enabled (.loop .advance) = true
    simp [enabled, hin, he]
  · show s.step (.loop .advance) = some { s with loop := s.loop.advance }
    simp [step, hin, loopStep, EventLoop.step, hstays]

/-- The loop over the local vector `functors` ends, and comes back to the test. -/
theorem functors_reach_test {functors : List F} {s : EventLoopThread F T} (hin : s.thread = .inLoop)
    (hpc : s.loop.pc = .running functors) (hquit : s.loop.quit_ = false)
    (hown : s.loop.ownWakeup = false) (hpoll : s.inPoll = false) :
    ∃ bs u, machine.Reaches s bs u ∧ u.AtTest ∧ u.polls = s.polls := by
  induction functors generalizing s with
  | nil =>
    have hnext : s.loop.advance =
        { s.loop with callingPendingFunctors_ := false, pc := .loopTest } := by
      simp [EventLoop.advance, hpc]
    have hrun := advance_reaches hin hown (by simp [hpc]) hnext rfl
    exact ⟨_, _, hrun, ⟨hin, rfl, hquit, hown, hpoll⟩, rfl⟩
  | cons functor functors ih =>
    have hnext : s.loop.advance =
        { s.loop with executed := s.loop.executed ++ [functor], pc := .inFunctor functors } := by
      simp [EventLoop.advance, hpc]
    have hrun := advance_reaches hin hown (by simp [hpc]) hnext rfl
    -- the functor returns without having called anything
    have hreturn := advance_reaches (s := { s with loop := { s.loop with
      executed := s.loop.executed ++ [functor], pc := .inFunctor functors } })
      hin hown (by simp) rfl rfl
    obtain ⟨bs, u, hrest, htest, hpolls⟩ := ih (s := { s with loop := { s.loop with
      executed := s.loop.executed ++ [functor], pc := .running functors } })
      hin rfl hquit hown hpoll
    exact ⟨_, u, (hrun.trans hreturn).trans hrest, htest, hpolls⟩

/-- One turn of `while (!quit_)` whose poll times out: one poll is started. -/
theorem turn_reaches_test {s : EventLoopThread F T} (h : s.AtTest) :
    ∃ bs u, machine.Reaches s bs u ∧ u.AtTest ∧ u.polls = s.polls + 1 := by
  obtain ⟨hin, hpc, hquit, hown, hpoll⟩ := h
  have htest : s.loop.advance = s.loop.setPc .polling := by simp [EventLoop.advance, hpc, hquit]
  have hpolling := advance_reaches hin hown (by simp [hpc]) htest rfl
  have hstart : machine.Reaches { s with loop := s.loop.setPc .polling } [.startPoll]
      { s with loop := s.loop.setPc .polling, inPoll := true, polls := s.polls + 1 } := by
    refine Machine.Reaches.cons ?_ rfl .refl
    simp [machine, enabled, EventLoop.setPc, hin, hpoll]
  have hreturns : machine.Reaches
      { s with loop := s.loop.setPc .polling, inPoll := true, polls := s.polls + 1 }
      [.loop (.pollReturns [])]
      { s with loop := s.loop.setPc (.handling []), polls := s.polls + 1 } := by
    refine Machine.Reaches.cons rfl ?_ .refl
    simp [machine, step, hin, hpoll, loopStep, EventLoop.step, EventLoop.setPc]
  -- no channel is active, and `doPendingFunctors` takes the queue
  have hhandled := advance_reaches
    (s := { s with loop := s.loop.setPc (.handling []), polls := s.polls + 1 })
    hin hown (by simp [EventLoop.setPc]) rfl rfl
  have henter := advance_reaches
    (s := { s with loop := s.loop.setPc .enterPending, polls := s.polls + 1 })
    hin hown (by simp [EventLoop.setPc]) rfl rfl
  have hswap := advance_reaches
    (s := { s with
      loop := { s.loop with callingPendingFunctors_ := true, pc := .swapPending },
      polls := s.polls + 1 })
    hin hown (by simp) rfl rfl
  obtain ⟨bs, u, hrest, hu, hpolls⟩ := functors_reach_test
    (s := { s with
      loop := { s.loop with
        callingPendingFunctors_ := true
        pendingFunctors_ := []
        pc := .running s.loop.pendingFunctors_ },
      polls := s.polls + 1 }) hin rfl hquit hown hpoll
  have hhead := ((hpolling.trans hstart).trans hreturns).trans hhandled
  exact ⟨_, u, ((hhead.trans henter).trans hswap).trans hrest, hu, hpolls⟩

/-- Any number of turns. -/
theorem turns_reach_test {s : EventLoopThread F T} (h : s.AtTest) (n : Nat) :
    ∃ bs u, machine.Reaches s bs u ∧ u.AtTest ∧ u.polls = s.polls + n := by
  induction n with
  | zero => exact ⟨[], s, .refl, h, rfl⟩
  | succ n ih =>
    obtain ⟨bs, u, hrun, hu, hpolls⟩ := ih
    obtain ⟨cs, v, hturn, hv, hone⟩ := turn_reaches_test hu
    exact ⟨bs ++ cs, v, hrun.trans hturn, hv, by rw [hone, hpolls, Nat.add_assoc]⟩

/-- **A quit before `loop()` is lost.** Once `loop_` is published and before `loop()` has been
    entered, nothing bounds the polls to come, whatever has been stored into `quit_`. -/
theorem exists_polls_of_published {s : EventLoopThread F T} (h : s.Inv)
    (hpublished : s.thread = .published) (n : Nat) :
    ∃ bs u, machine.Reaches s bs u ∧ u.polls = s.polls + n := by
  have hpc := h.outside (by simp [hpublished])
  have hown : s.loop.ownWakeup = false := by
    cases hown : s.loop.ownWakeup with
    | false => rfl
    | true =>
      have hcalling := h.own hown
      rw [hpc] at hcalling
      cases hcalling
  have hpoll : s.inPoll = false := by
    cases hpoll : s.inPoll with
    | false => rfl
    | true =>
      have hin := (h.inPoll hpoll).1
      rw [hpublished] at hin
      cases hin
  -- `loop()` stores `false` into `quit_`
  have henter : machine.Reaches s [.threadFunc]
      { s with loop := s.loop.step .loop, thread := .inLoop } := by
    refine Machine.Reaches.cons ?_ ?_ .refl
    · show s.enabled .threadFunc = true
      simp [enabled, hpublished]
    · show some s.threadFunc = _
      simp [threadFunc, hpublished]
  obtain ⟨bs, u, hrun, -, hpolls⟩ := turns_reach_test
    (s := { s with loop := s.loop.step .loop, thread := .inLoop }) ⟨rfl, rfl, rfl, hown, hpoll⟩ n
  exact ⟨_, u, henter.trans hrun, hpolls⟩

/-- A thread that has the pointer from `startLoop` and finds the loop entered does quit it. -/
theorem quitting_of_step {callback_ : Bool} {as : List (ThreadAct F T)}
    {s₁ s₂ : EventLoopThread F T} {t : T} (h : machine.Reaches (new callback_) as s₁)
    (hreturned : s₁.returned = true)
    (hs : s₁.step (.loop (.quit (.external t))) = some s₂) (hne : s₁.thread ≠ .published) :
    Quitting t s₂.polls s₂ := by
  have hinv := inv_reaches h
  have hentered : s₁.thread.hasEntered = true := by
    have hp := hinv.published (.inr hreturned)
    cases hthread : s₁.thread with
    | published => exact absurd hthread hne
    | _ =>
      rw [hthread] at hp
      first | rfl | cases hp
  simp only [step] at hs
  split at hs
  · cases hs
  · cases hs
    exact quitting_quit hinv t hentered

/-- In every run after such a call a loop that is in `poll` is woken: the eventfd is readable, or
    the thread that quits is about to write to it. -/
theorem quit_wakes_poll {callback_ : Bool} {as bs : List (ThreadAct F T)}
    {s₁ s₂ s : EventLoopThread F T} {t : T} (h : machine.Reaches (new callback_) as s₁)
    (hreturned : s₁.returned = true) (hs : s₁.step (.loop (.quit (.external t))) = some s₂)
    (hne : s₁.thread ≠ .published) (hrun : machine.Reaches s₂ bs s) (hpc : s.loop.pc = .polling) :
    s.loop.WokenBy t := by
  have hquitting := quitting_of_step h hreturned hs hne
  exact (hrun.preserves (fun _ _ _ hI he hs => Quitting.step hI he hs) hquitting).woken hpc

/-- **When a quit works.** In every run, when `startLoop` has returned and a thread that is not the
    loop's calls `quit`: in every run from there the loop's thread starts at most one more poll,
    exactly if `loop()` had stored `false` into `quit_` before the call. -/
theorem quit_polls_at_most_once_iff {callback_ : Bool} {as : List (ThreadAct F T)}
    {s₁ s₂ : EventLoopThread F T} {t : T} (h : machine.Reaches (new callback_) as s₁)
    (hreturned : s₁.returned = true) (he : s₁.enabled (.loop (.quit (.external t))) = true)
    (hs : s₁.step (.loop (.quit (.external t))) = some s₂) :
    (∀ bs s, machine.Reaches s₂ bs s → s.polls ≤ s₂.polls + 1) ↔ s₁.thread ≠ .published := by
  constructor
  · intro hall hpublished
    have hpublished₂ : s₂.thread = .published := by
      simp only [step] at hs
      split at hs
      · cases hs
      · cases hs
        exact hpublished
    -- two polls from there refute the bound
    obtain ⟨bs, s, hrun, hpolls⟩ :=
      exists_polls_of_published ((inv_reaches h).step he hs) hpublished₂ 2
    have hbound := hall bs s hrun
    omega
  · intro hne bs s hrun
    have hquitting := quitting_of_step h hreturned hs hne
    exact (hrun.preserves (fun _ _ _ hI he hs => Quitting.step hI he hs) hquitting).polls

/-- `~EventLoopThread` right after `startLoop`: the new thread has published `loop_` and has not yet
    called `loop()`. -/
def earlyQuit : List (ThreadAct Unit Unit) :=
  [.start, .threadFunc, .threadFunc, .startLoopReturns]

/-- From there the wakeup ends the first poll, and the thread goes on to the second. -/
def pollsAfterQuit : List (ThreadAct Unit Unit) :=
  [.loop (.wakeup (.external ())), .threadFunc, .loop .advance, .startPoll,
    .loop (.pollReturns [.wakeup]), .loop .advance, .loop .advance, .loop .advance, .loop .advance,
    .loop .advance, .loop .advance, .startPoll]

/-- The quit is lost: two polls are started after it, and `quit_` is false. -/
theorem earlyQuit_lost :
    ∃ s₁ s₂ s : EventLoopThread Unit Unit, machine.Reaches (new false) earlyQuit s₁ ∧
      s₁.returned = true ∧ s₁.enabled (.loop (.quit (.external ()))) = true ∧
      s₁.step (.loop (.quit (.external ()))) = some s₂ ∧ machine.Reaches s₂ pollsAfterQuit s ∧
      ¬s.polls ≤ s₂.polls + 1 ∧ s.inPoll = true ∧ s.loop.quit_ = false := by
  have hbefore : machine.Reaches (new false) earlyQuit _ := Machine.reaches_of_run rfl
  exact ⟨_, _, _, hbefore, rfl, rfl, rfl, Machine.reaches_of_run rfl, by decide, rfl, rfl⟩

/-- `quit` while the loop is in its first poll. -/
def quitInPoll : List (ThreadAct Unit Unit) :=
  [.start, .threadFunc, .threadFunc, .startLoopReturns, .threadFunc, .loop .advance, .startPoll]

theorem quitInPoll_polls_at_most_once :
    ∃ s₁ s₂ : EventLoopThread Unit Unit, machine.Reaches (new false) quitInPoll s₁ ∧
      s₁.step (.loop (.quit (.external ()))) = some s₂ ∧
      ∀ bs s, machine.Reaches s₂ bs s → s.polls ≤ s₂.polls + 1 := by
  have hrun : machine.Reaches (new false) quitInPoll _ := Machine.reaches_of_run rfl
  refine ⟨_, _, hrun, rfl, ?_⟩
  exact (quit_polls_at_most_once_iff hrun rfl rfl rfl).mpr (fun h => by cases h)

end EventLoopThread

end RainWebServer.Net
