import RainWebServer.Lib.Machine
import Mathlib.Algebra.Group.Nat.Defs
import Mathlib.Logic.Function.Basic

/-!
# EventLoop: the Functor Queue and its Wakeups

Embeds `src/net/EventLoop.cc`: `loop`, `runInLoop`, `queueInLoop`, `wakeup`,
`handleWakeupRead`, `quit` and `doPendingFunctors`.

The machine's actions are the pieces between two accesses to shared data. A push under the
lock and the later write to the eventfd are separate actions, so every placement of the two
relative to the drain, the swap and the next poll is a run of the machine. Functors are
values of an arbitrary type `F`, external threads of an arbitrary type `T`. What a functor
or a channel handler does is left to the run: while one is executing, the loop's thread may
push any functors, run any directly, and quit.

## Main result

`eventLoop_reaches_no_lost_functor` : in every reachable state the functors executed, then
the rest of the batch, then `pendingFunctors_` are the functors queued in lock order, and a
loop blocked in `poll` with functors pending has a wakeup on its way.
-/

namespace RainWebServer.Net

open RainWebServer.Lib

/-! ## §1 The loop and its callers -/

/-- A channel in `activeChannels_`: the loop's own `wakeupChannel_`, or any other. -/
inductive ActiveChannel where
  | wakeup
  | other
  deriving DecidableEq, Repr

/-- Where the loop's thread is in `loop()`. -/
inductive LoopPc (F : Type) where
  /-- Outside `loop()`. -/
  | notLooping
  /-- At the test `while (!quit_)`. -/
  | loopTest
  /-- In `poller_->poll`. -/
  | polling
  /-- In the loop over `activeChannels_`, with these left. -/
  | handling (active : List ActiveChannel)
  /-- In the callback of a channel. -/
  | inHandler (active : List ActiveChannel)
  /-- At the start of `doPendingFunctors`. -/
  | enterPending
  /-- In `doPendingFunctors`, before the lock. -/
  | swapPending
  /-- In the loop over the local vector `functors`, with these left. -/
  | running (functors : List F)
  /-- In a functor of that vector, with these left. -/
  | inFunctor (functors : List F)
  deriving DecidableEq, Repr

/-- Where an external thread is. -/
inductive ExternalPc where
  | idle
  /-- In `queueInLoop`, after the push and before `wakeup()`. -/
  | pushed
  /-- In `quit`, after the store to `quit_` and before `wakeup()`. -/
  | quitting
  deriving DecidableEq, Repr

/-- The calling thread: the loop's own, or another. -/
inductive Caller (T : Type) where
  | loopThread
  | external (t : T)

/-- The members of `EventLoop`, the kernel's counter behind `wakeupFd_`, where each thread
    is, and three records: the functors queued in lock order, those executed from the queue,
    and those that `runInLoop` called directly. -/
structure EventLoop (F T : Type) where
  looping_ : Bool
  quit_ : Bool
  callingPendingFunctors_ : Bool
  pendingFunctors_ : List F
  counter : Nat
  pc : LoopPc F
  /-- The loop's own thread has pushed and not yet written to the eventfd. -/
  ownWakeup : Bool
  external : T → ExternalPc
  queued : List F
  executed : List F
  ranDirectly : List F

variable {F T : Type}

/-- The constructor. -/
def EventLoop.new : EventLoop F T :=
  ⟨false, false, false, [], 0, .notLooping, false, fun _ => .idle, [], [], []⟩

namespace EventLoop

/-- The loop's thread moves on. -/
def setPc (s : EventLoop F T) (pc : LoopPc F) : EventLoop F T := { s with pc := pc }

/-- `isInLoopThread`. -/
def isInLoopThread : Caller T → Bool
  | .loopThread => true
  | .external _ => false

/-- The largest value of an eventfd counter; a non-blocking write beyond it fails. -/
def maxCounter : Nat := 2 ^ 64 - 2

/-- `wakeup`: writes 1 to the eventfd. -/
def wakeup (s : EventLoop F T) : EventLoop F T :=
  if s.counter + 1 ≤ maxCounter then { s with counter := s.counter + 1 } else s

/-- `handleWakeupRead`: the read takes the whole counter, and fails when it is 0. -/
def handleWakeupRead (s : EventLoop F T) : EventLoop F T := { s with counter := 0 }

/-- The locked part of `queueInLoop`. -/
def push (s : EventLoop F T) (cb : F) : EventLoop F T :=
  { s with pendingFunctors_ := s.pendingFunctors_ ++ [cb], queued := s.queued ++ [cb] }

variable [DecidableEq T]

/-- An external thread moves on. -/
def setExternal (s : EventLoop F T) (t : T) (pc : ExternalPc) : EventLoop F T :=
  { s with external := Function.update s.external t pc }

/-- `queueInLoop` up to the test that decides on the wakeup, which is left to be done. -/
def queueInLoop (s : EventLoop F T) (caller : Caller T) (cb : F) : EventLoop F T :=
  let s := s.push cb
  if !isInLoopThread caller || s.callingPendingFunctors_ then
    match caller with
    | .loopThread => { s with ownWakeup := true }
    | .external t => s.setExternal t .pushed
  else s

/-- `runInLoop`. -/
def runInLoop (s : EventLoop F T) (caller : Caller T) (cb : F) : EventLoop F T :=
  if isInLoopThread caller then { s with ranDirectly := s.ranDirectly ++ [cb] }
  else s.queueInLoop caller cb

/-- `quit` up to the wakeup. -/
def quit (s : EventLoop F T) (caller : Caller T) : EventLoop F T :=
  let s := { s with quit_ := true }
  match caller with
  | .loopThread => s
  | .external t => s.setExternal t .quitting

end EventLoop

/-! ## §2 The machine -/

/-- The actions of the loop's thread and of the external threads. -/
inductive LoopAct (F T : Type) where
  /-- `loop()` is called. -/
  | loop
  /-- `epoll_wait` returns; `active` is empty after a timeout or an interrupt. -/
  | pollReturns (active : List ActiveChannel)
  /-- The loop's thread goes on to its next piece of `loop()` or `doPendingFunctors()`. -/
  | advance
  /-- A thread calls `queueInLoop`. -/
  | queueInLoop (caller : Caller T) (cb : F)
  /-- A thread calls `runInLoop`. -/
  | runInLoop (caller : Caller T) (cb : F)
  /-- A thread calls `quit`. -/
  | quit (caller : Caller T)
  /-- A thread does the `wakeup()` that it has come to. -/
  | wakeup (caller : Caller T)

namespace EventLoop

/-- The thread is at a point where it can call. The calls of the loop's thread are those that the
    bodies of handlers and functors make; the destructors that run when a batch of functors is
    dropped make none. -/
def mayCall (s : EventLoop F T) : Caller T → Bool
  | .loopThread =>
    match s.pc with
    | .inHandler _ | .inFunctor _ => !s.ownWakeup
    | _ => false
  | .external t => s.external t = .idle

/-- Which actions can be taken. The loop's thread calls from inside `loop()`, and every
    thread finishes one call before the next. -/
def enabled (s : EventLoop F T) : LoopAct F T → Bool
  | .loop => match s.pc with
    | .notLooping => true
    | _ => false
  | .pollReturns _ => match s.pc with
    | .polling => true
    | _ => false
  | .advance => match s.pc with
    | .notLooping | .polling => false
    | _ => !s.ownWakeup
  | .queueInLoop caller _ | .runInLoop caller _ | .quit caller => s.mayCall caller
  | .wakeup .loopThread => s.ownWakeup
  | .wakeup (.external t) => s.external t ≠ .idle

/-- One step of the loop's thread. -/
def advance (s : EventLoop F T) : EventLoop F T :=
  match s.pc with
  | .notLooping | .polling => s
  | .loopTest =>
    if s.quit_ then { s with looping_ := false, pc := .notLooping } else s.setPc .polling
  | .handling [] => s.setPc .enterPending
  | .handling (.wakeup :: active) => s.handleWakeupRead.setPc (.handling active)
  | .handling (.other :: active) => s.setPc (.inHandler active)
  | .inHandler active => s.setPc (.handling active)
  | .enterPending => { s with callingPendingFunctors_ := true, pc := .swapPending }
  | .swapPending => { s with pendingFunctors_ := [], pc := .running s.pendingFunctors_ }
  | .running [] => { s with callingPendingFunctors_ := false, pc := .loopTest }
  | .running (functor :: functors) =>
    { s with executed := s.executed ++ [functor], pc := .inFunctor functors }
  | .inFunctor functors => s.setPc (.running functors)

variable [DecidableEq T]

/-- The effect of an action. -/
def step (s : EventLoop F T) : LoopAct F T → EventLoop F T
  | .loop => { s with looping_ := true, quit_ := false, pc := .loopTest }
  | .pollReturns active => s.setPc (.handling active)
  | .advance => s.advance
  | .queueInLoop caller cb => s.queueInLoop caller cb
  | .runInLoop caller cb => s.runInLoop caller cb
  | .quit caller => s.quit caller
  | .wakeup .loopThread => { s.wakeup with ownWakeup := false }
  | .wakeup (.external t) => s.wakeup.setExternal t .idle

end EventLoop

/-- The loop and its callers as a machine. -/
def eventLoopMachine [DecidableEq T] : Machine (EventLoop F T) (LoopAct F T) :=
  ⟨EventLoop.enabled, fun s a => some (s.step a)⟩

/-! ## §3 The invariant -/

/-- The unexecuted rest of the current batch. -/
def LoopPc.batch : LoopPc F → List F
  | .running functors | .inFunctor functors => functors
  | _ => []

/-- From here the loop can block in `poll` before it next takes the queue. -/
def LoopPc.mayBlock : LoopPc F → Bool
  | .handling _ | .inHandler _ | .enterPending | .swapPending => false
  | _ => true

/-- The loop's thread is between the two stores to `callingPendingFunctors_`. -/
def LoopPc.calling : LoopPc F → Bool
  | .swapPending | .running _ | .inFunctor _ => true
  | _ => false

/-- The eventfd is readable, or some thread is about to write to it. -/
def EventLoop.WakeupComing (s : EventLoop F T) : Prop :=
  0 < s.counter ∨ (∃ t, s.external t = .pushed) ∨ s.ownWakeup = true

/-- The invariant of the loop. -/
structure EventLoopInv (s : EventLoop F T) : Prop where
  order : s.executed ++ s.pc.batch ++ s.pendingFunctors_ = s.queued
  wake : s.pc.mayBlock = true → s.pendingFunctors_ ≠ [] → s.WakeupComing
  calling : s.callingPendingFunctors_ = s.pc.calling
  own : s.ownWakeup = true → s.pc.calling = true ∧ s.pc.mayBlock = true

/-! ## §4 Steps -/

theorem EventLoop.counter_wakeup_pos (s : EventLoop F T) : 0 < s.wakeup.counter := by
  unfold EventLoop.wakeup
  split
  · exact Nat.succ_pos _
  · rename_i hfull
    show 0 < s.counter
    simp only [EventLoop.maxCounter] at hfull
    omega

theorem EventLoop.wakeup_frame (s : EventLoop F T) :
    s.wakeup = { s with counter := s.wakeup.counter } := by
  unfold EventLoop.wakeup
  split <;> rfl

/-- A write to the eventfd keeps the invariant, whatever the writer then goes on to. -/
theorem EventLoopInv.wakeup {s : EventLoop F T} (h : EventLoopInv s) (own : Bool)
    (external : T → ExternalPc) (hown : own = true → s.ownWakeup = true) :
    EventLoopInv { s.wakeup with ownWakeup := own, external := external } := by
  have hpos := s.counter_wakeup_pos
  rw [s.wakeup_frame]
  exact ⟨h.order, fun _ _ => .inl hpos, h.calling, fun ho => h.own (hown ho)⟩

/-- A push keeps the order of the queue. -/
theorem EventLoopInv.order_push {s : EventLoop F T} (h : EventLoopInv s) (cb : F) :
    s.executed ++ s.pc.batch ++ (s.pendingFunctors_ ++ [cb]) = s.queued ++ [cb] := by
  rw [← List.append_assoc, h.order]

/-- A step of the loop's thread keeps the invariant. -/
theorem EventLoopInv.advance {s : EventLoop F T} (h : EventLoopInv s)
    (hown : s.ownWakeup = false) : EventLoopInv s.advance := by
  obtain ⟨horder, hwake, hcalling, -⟩ := id h
  have hno : ∀ {P : Prop}, s.ownWakeup = true → P := by
    intro P ho
    rw [hown] at ho
    cases ho
  unfold EventLoop.advance
  cases hpc : s.pc with
  | notLooping => exact h
  | polling => exact h
  | loopTest =>
    simp only [hpc] at horder hwake hcalling
    simp only
    split
    · exact ⟨horder, hwake, hcalling, hno⟩
    · exact ⟨horder, hwake, hcalling, hno⟩
  | handling active =>
    simp only [hpc] at horder hcalling
    cases active with
    | nil => exact ⟨horder, nofun, hcalling, hno⟩
    | cons channel active =>
      -- the drain happens here, before the queue is taken
      cases channel with
      | wakeup => exact ⟨horder, nofun, hcalling, hno⟩
      | other => exact ⟨horder, nofun, hcalling, hno⟩
  | inHandler active =>
    simp only [hpc] at horder hcalling
    exact ⟨horder, nofun, hcalling, hno⟩
  | enterPending =>
    simp only [hpc] at horder
    exact ⟨horder, nofun, rfl, hno⟩
  | swapPending =>
    simp only [hpc] at horder hcalling
    refine ⟨?_, fun _ hne => absurd rfl hne, hcalling, hno⟩
    simpa [LoopPc.batch] using horder
  | running functors =>
    simp only [hpc] at horder hwake hcalling
    cases functors with
    | nil => exact ⟨horder, hwake, rfl, hno⟩
    | cons functor functors =>
      refine ⟨?_, hwake, hcalling, hno⟩
      simpa [LoopPc.batch] using horder
  | inFunctor functors =>
    simp only [hpc] at horder hwake hcalling
    exact ⟨horder, hwake, hcalling, hno⟩

variable [DecidableEq T]

/-- `queueInLoop` keeps the invariant: an external thread always goes on to a wakeup, and the
    loop's own thread does so exactly when the batch has been taken already. -/
theorem EventLoopInv.queueInLoop {s : EventLoop F T} (h : EventLoopInv s) {caller : Caller T}
    (hcall : s.mayCall caller = true) (cb : F) : EventLoopInv (s.queueInLoop caller cb) := by
  have horder := h.order_push cb
  cases caller with
  | external t =>
    refine ⟨horder, ?_, h.calling, h.own⟩
    intro _ _
    exact .inr (.inl ⟨t, Function.update_self t _ _⟩)
  | loopThread =>
    have hcalling := h.calling
    cases hpc : s.pc with
    | inHandler active =>
      -- before the batch is taken no wakeup is needed: the functors run in this turn
      simp only [hpc, LoopPc.calling] at hcalling
      have hpush : s.queueInLoop .loopThread cb = s.push cb := by
        simp [EventLoop.queueInLoop, EventLoop.isInLoopThread, EventLoop.push, hcalling]
      rw [hpush]
      refine ⟨horder, ?_, h.calling, h.own⟩
      intro hblock
      simp [EventLoop.push, hpc, LoopPc.mayBlock] at hblock
    -- a functor that queues another one wakes the loop for the next turn
    | inFunctor functors =>
      simp only [hpc, LoopPc.calling] at hcalling
      have hpush : s.queueInLoop .loopThread cb = { s.push cb with ownWakeup := true } := by
        simp [EventLoop.queueInLoop, EventLoop.isInLoopThread, EventLoop.push, hcalling]
      rw [hpush]
      refine ⟨horder, fun _ _ => .inr (.inr rfl), h.calling, fun _ => ?_⟩
      simp [EventLoop.push, hpc, LoopPc.calling, LoopPc.mayBlock]
    | _ => simp [EventLoop.mayCall, hpc] at hcall

/-- `EventLoopInv` is an inductive invariant. -/
theorem eventLoopInv_invariant :
    (eventLoopMachine (F := F) (T := T)).Invariant EventLoop.new EventLoopInv where
  init := ⟨rfl, fun _ hne => absurd rfl hne, rfl, nofun⟩
  step := by
    intro s a h he
    refine ⟨_, rfl, ?_⟩
    change EventLoop.enabled s a = true at he
    show EventLoopInv (s.step a)
    cases a with
    | loop =>
      cases hpc : s.pc with
      | notLooping =>
        obtain ⟨horder, hwake, hcalling, hown⟩ := h
        simp only [hpc] at horder hwake hcalling hown
        exact ⟨horder, hwake, hcalling, hown⟩
      | _ => simp [EventLoop.enabled, hpc] at he
    | pollReturns active =>
      cases hpc : s.pc with
      | polling =>
        obtain ⟨horder, -, hcalling, hown⟩ := h
        simp only [hpc] at horder hcalling hown
        exact ⟨horder, nofun, hcalling, fun ho => absurd (hown ho).1 nofun⟩
      | _ => simp [EventLoop.enabled, hpc] at he
    | advance =>
      refine h.advance ?_
      revert he
      simp only [EventLoop.enabled]
      split <;> simp
    | queueInLoop caller cb => exact h.queueInLoop he cb
    | runInLoop caller cb =>
      cases caller with
      | loopThread => exact ⟨h.order, h.wake, h.calling, h.own⟩
      | external t =>
        have hcall : s.mayCall (.external t) = true := he
        exact h.queueInLoop hcall cb
    | quit caller =>
      cases caller with
      | loopThread => exact ⟨h.order, h.wake, h.calling, h.own⟩
      | external t =>
        -- a thread that is free to call has no push outstanding
        refine ⟨h.order, fun hblock hne => ?_, h.calling, h.own⟩
        have hidle : s.external t = .idle := by
          simpa [EventLoop.enabled, EventLoop.mayCall] using he
        rcases h.wake hblock hne with hpos | ⟨u, hu⟩ | hown
        · exact .inl hpos
        · have hut : u ≠ t := by
            rintro rfl
            rw [hidle] at hu
            cases hu
          exact .inr (.inl ⟨u, (Function.update_of_ne hut _ _).trans hu⟩)
        · exact .inr (.inr hown)
    | wakeup caller =>
      cases caller with
      | loopThread => exact h.wakeup false s.wakeup.external nofun
      | external t => exact h.wakeup s.wakeup.ownWakeup _ (by rw [s.wakeup_frame]; exact id)

/-- **No functor is lost, and no wakeup either.** In every state that any interleaving of the
    loop's thread with any external threads reaches: the functors executed from the queue,
    the rest of the batch and `pendingFunctors_` are the functors queued, in lock order; and
    when the loop is blocked in `poll` with functors pending, the eventfd is readable or an
    external thread has pushed and not yet written. -/
theorem eventLoop_reaches_no_lost_functor {as : List (LoopAct F T)} {s : EventLoop F T}
    (h : eventLoopMachine.Reaches EventLoop.new as s) :
    s.executed ++ s.pc.batch ++ s.pendingFunctors_ = s.queued ∧
    (s.pc = .polling → s.pendingFunctors_ ≠ [] →
      0 < s.counter ∨ ∃ t, s.external t = .pushed) := by
  have hinv := Machine.invariant_reaches eventLoopInv_invariant h
  refine ⟨hinv.order, ?_⟩
  intro hpc hne
  rcases hinv.wake (by rw [hpc]; rfl) hne with hpos | hpushed | hown
  · exact .inl hpos
  · exact .inr hpushed
  · have hcalling := (hinv.own hown).1
    rw [hpc] at hcalling
    cases hcalling

/-- A push and its wakeup on two sides of the drain: external thread 0 pushes functor 7, the
    loop takes it and pushes 8 from inside it, and both wakeups come after the swap. -/
def lateWakeupRun : List (LoopAct Nat Nat) :=
  [.loop, .advance, .queueInLoop (.external 0) 7, .pollReturns [.wakeup], .advance, .advance,
    .advance, .advance, .advance, .queueInLoop .loopThread 8, .wakeup .loopThread, .advance,
    .advance, .advance]

theorem lateWakeupRun_no_lost_functor :
    ∃ s, eventLoopMachine.Reaches EventLoop.new lateWakeupRun s ∧ s.pc = .polling ∧
      s.pendingFunctors_ = [8] ∧ s.executed ++ s.pc.batch ++ s.pendingFunctors_ = s.queued ∧
      (0 < s.counter ∨ ∃ t, s.external t = .pushed) := by
  have hrun : (eventLoopMachine.run EventLoop.new lateWakeupRun).map
      (fun s => (s.pc, s.pendingFunctors_)) = some (LoopPc.polling, [8]) := by decide
  obtain ⟨s, hs, heq⟩ := Option.map_eq_some_iff.mp hrun
  obtain ⟨hpc, hpending⟩ := Prod.mk.inj heq
  have hreach := Machine.reaches_of_run hs
  obtain ⟨horder, hwake⟩ := eventLoop_reaches_no_lost_functor hreach
  exact ⟨s, hreach, hpc, hpending, horder, hwake hpc (by simp [hpending])⟩

end RainWebServer.Net
