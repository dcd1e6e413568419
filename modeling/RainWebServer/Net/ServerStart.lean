import Mathlib.Algebra.Group.Nat.Defs
import RainWebServer.Net.EventLoopThread

/-!
# TcpServer: Starting

Embeds `start` of `src/net/TcpServer.cc` with `EventLoopThreadPool::start` and the `startLoop` of
every `EventLoopThread` of the pool. Any number of threads call `start`, and the counter `started_`
lets one of them through; it makes the threads one by one, and for each waits on `cond_` until the
new thread has published its loop. At last it hands `Acceptor::listen` to the base loop.

The new threads are machines of `EventLoopThread`, and the base loop is one of `EventLoop`; they
take their steps in between. Nobody quits a loop of the pool: `~EventLoopThread` does, and the
server is not destroyed while it starts.

## Main results

- `Up.threadFunc` : what a piece of `threadFunc` does to a thread of the pool
- `Up.other` : what all else that happens to the thread leaves
-/

namespace RainWebServer.Net

open RainWebServer.Lib

variable {F T : Type}

deriving instance DecidableEq for Caller

/-! ## §1 The server and its threads -/

/-- Where a thread is in `start`. -/
inductive StartPc where
  /-- At the test `i < numThreads_`. -/
  | making (i : Nat)
  /-- In `cond_.wait` of the `startLoop` of thread `t` of the pool. -/
  | waiting (i t : Nat)
  /-- Before `loop_->runInLoop`. -/
  | listening
  deriving DecidableEq, Repr

/-- A functor of the base loop: `Acceptor::listen`, or any other. -/
inductive BaseFunctor where
  | listen
  | other
  deriving DecidableEq, Repr

/-- The members of `TcpServer` and of its pool that `start` uses, where each thread is in `start`,
    the base loop, and the number of calls of `start` so far. `loops_` has the number of the thread
    whose loop it points to. -/
structure ServerStart (F T : Type) where
  numThreads_ : Nat
  threadInitCallback_ : Bool
  started_ : BitVec 32
  threads_ : List (EventLoopThread F T)
  loops_ : List Nat
  loop_ : EventLoop BaseFunctor T
  starting : Caller T → Option StartPc
  calls : Nat

/-- What happens next. -/
inductive StartAct (F T : Type) where
  /-- A thread calls `start`. -/
  | start (caller : Caller T)
  /-- A thread goes on to its next piece of `start`. -/
  | next (caller : Caller T)
  /-- A new thread goes on to its next piece of `threadFunc`. -/
  | threadFunc (i : Nat)
  /-- Something else happens to a thread of the pool or to its loop. -/
  | thread (i : Nat) (a : ThreadAct F T)
  /-- Something happens to the base loop. -/
  | base (a : LoopAct BaseFunctor T)

/-- The thread that takes the action on the base loop; the kernel is none. -/
def LoopAct.caller : LoopAct F T → Option (Caller T)
  | .loop | .advance => some .loopThread
  | .pollReturns _ => none
  | .queueInLoop caller _ | .runInLoop caller _ | .quit caller | .wakeup caller => some caller

/-- The action is a call of `quit`. -/
def LoopAct.isQuit : LoopAct F T → Bool
  | .quit _ => true
  | _ => false

/-- The functor that is handed over. -/
def LoopAct.functor : LoopAct F T → Option F
  | .queueInLoop _ cb | .runInLoop _ cb => some cb
  | _ => none

namespace ServerStart

/-- The constructor, and `setThreadNum`. -/
def new (numThreads : Nat) (threadInitCallback : Bool) : ServerStart F T :=
  ⟨numThreads, threadInitCallback, 0, [], [], EventLoop.new, fun _ => none, 0⟩

/-- What is left to the threads of the pool. -/
def threadMay : ThreadAct F T → Bool
  | .start | .startLoopReturns | .threadFunc => false
  | .startPoll => true
  | .loop a => !a.isQuit

/-- The thread is not inside another call; the base loop's thread calls from a handler or a
    functor, or it has not called `loop()`. -/
def mayStart (s : ServerStart F T) : Caller T → Bool
  | .loopThread => s.loop_.mayCall .loopThread || match s.loop_.pc with
    | .notLooping => true
    | _ => false
  | .external t => s.loop_.mayCall (.external t)

/-- Which actions can be taken. A thread in `start` does nothing else, and `start` is called less
    than `2 ^ 32` times, so that `started_` does not come back to 0. -/
def enabled (s : ServerStart F T) : StartAct F T → Bool
  | .start caller => (s.starting caller).isNone && s.mayStart caller && s.calls + 1 < 2 ^ 32
  | .next caller => match s.starting caller with
    | none => false
    | some (.waiting _ t) => match s.threads_[t]? with
      | none => false
      | some thread => thread.enabled .startLoopReturns
    | some _ => true
  | .threadFunc i => match s.threads_[i]? with
    | none => false
    | some t => t.enabled .threadFunc
  | .thread i a => match s.threads_[i]? with
    | none => false
    | some t => threadMay a && t.enabled a
  | .base a => s.loop_.enabled a && decide (a.functor ≠ some .listen) && match a.caller with
    | none => true
    | some caller => (s.starting caller).isNone

variable [DecidableEq T]

/-- A thread moves on in `start`. -/
def setStarting (s : ServerStart F T) (caller : Caller T) (pc : Option StartPc) :
    ServerStart F T :=
  { s with starting := Function.update s.starting caller pc }

/-- A thread of the pool takes a step. -/
def stepThread (s : ServerStart F T) (t : Nat) (a : ThreadAct F T) : Option (ServerStart F T) :=
  match s.threads_[t]? with
  | none => none
  | some thread => (thread.step a).map fun thread => { s with threads_ := s.threads_.set t thread }

/-- `start`, up to the test of `started_`. -/
def start (s : ServerStart F T) (caller : Caller T) : ServerStart F T :=
  let through := s.started_ = 0
  let s := { s with started_ := s.started_ + 1, calls := s.calls + 1 }
  if through then s.setStarting caller (some (.making 0)) else s

/-- The next piece of `start`. The callback that a pool without threads calls is the user's. -/
def next (s : ServerStart F T) (caller : Caller T) : Option (ServerStart F T) :=
  match s.starting caller with
  | none => none
  | some (.making i) =>
    if i < s.numThreads_ then
      -- `threads_.push_back`, and `thread_.start()` of `startLoop`
      let t := s.threads_.length
      let thread := EventLoopThread.new s.threadInitCallback_
      ({ s with threads_ := s.threads_ ++ [thread] }.setStarting caller
        (some (.waiting i t))).stepThread t .start
    else some (s.setStarting caller (some .listening))
  | some (.waiting i t) =>
    ({ s with loops_ := s.loops_ ++ [t] }.setStarting caller
      (some (.making (i + 1)))).stepThread t .startLoopReturns
  | some .listening =>
    some ({ s with loop_ := s.loop_.runInLoop caller .listen }.setStarting caller none)

/-- The effect of an action. -/
def step (s : ServerStart F T) : StartAct F T → Option (ServerStart F T)
  | .start caller => some (s.start caller)
  | .next caller => s.next caller
  | .threadFunc t => s.stepThread t .threadFunc
  | .thread t a => s.stepThread t a
  | .base a => some { s with loop_ := s.loop_.step a }

/-- The starting server as a machine. -/
def machine : Machine (ServerStart F T) (StartAct F T) := ⟨enabled, step⟩

/-- `Acceptor::listen` has run this many times. -/
def listened (s : ServerStart F T) : Nat :=
  (s.loop_.executed ++ s.loop_.ranDirectly).count .listen

end ServerStart

/-! ## §2 A thread of the pool -/

/-- From its start until it runs its loop. -/
def ThreadPc.up : ThreadPc → Bool
  | .started | .inCallback | .publishing | .published | .inLoop => true
  | _ => false

namespace EventLoop

variable [DecidableEq T]

/-- Only `quit` stores `true` into `quit_`. -/
theorem quit_step {s : EventLoop F T} {a : LoopAct F T} (ha : a.isQuit = false)
    (hquit : s.quit_ = false) : (s.step a).quit_ = false := by
  have hqueue : ∀ caller cb, (s.queueInLoop caller cb).quit_ = false := by
    intro caller cb
    cases caller with
    | loopThread =>
      simp only [queueInLoop]
      split
      · exact hquit
      · exact hquit
    | external t => exact hquit
  cases a with
  | loop => rfl
  | pollReturns active => exact hquit
  | advance => exact (s.quit_advance).trans hquit
  | queueInLoop caller cb => exact hqueue caller cb
  | runInLoop caller cb =>
    cases caller with
    | loopThread => exact hquit
    | external t => exact hqueue (.external t) cb
  | quit caller => cases ha
  | wakeup caller =>
    cases caller with
    | loopThread =>
      have hsame : s.wakeup.quit_ = false := by rw [s.wakeup_frame]; exact hquit
      exact hsame
    | external t =>
      have hsame : s.wakeup.quit_ = false := by rw [s.wakeup_frame]; exact hquit
      exact hsame

omit [DecidableEq T] in
/-- Without a quit the loop's thread stays in `loop()`. -/
theorem stays_in_loop {s : EventLoop F T} (he : s.enabled .advance = true)
    (hquit : s.quit_ = false) : s.advance.pc ≠ .notLooping := by
  intro hpc
  cases hs : s.pc with
  | notLooping => simp [enabled, hs] at he
  | polling => simp [enabled, hs] at he
  | loopTest => simp [advance, hs, hquit, setPc] at hpc
  | handling active =>
    cases active with
    | nil => simp [advance, hs, setPc] at hpc
    | cons channel active => cases channel <;> simp [advance, hs, setPc] at hpc
  | inHandler active => simp [advance, hs, setPc] at hpc
  | enterPending => simp [advance, hs] at hpc
  | swapPending => simp [advance, hs] at hpc
  | running functors => cases functors <;> simp [advance, hs] at hpc
  | inFunctor functors => simp [advance, hs, setPc] at hpc

/-- Another thread's place is left as it is. -/
theorem external_step {s : EventLoop F T} {a : LoopAct F T} {t : T}
    (ha : a.caller ≠ some (.external t)) : (s.step a).external t = s.external t := by
  have hother : ∀ u, Caller.external u ≠ .external t → ∀ pc,
      Function.update s.external u pc t = s.external t := by
    intro u hne pc
    exact Function.update_of_ne (fun heq : t = u => hne (heq ▸ rfl)) _ _
  have hqueue : ∀ caller cb, caller ≠ .external t →
      (s.queueInLoop caller cb).external t = s.external t := by
    intro caller cb hne
    cases caller with
    | loopThread =>
      simp only [queueInLoop]
      split
      · rfl
      · rfl
    | external u => exact hother u hne _
  cases a with
  | loop => rfl
  | pollReturns active => rfl
  | advance =>
    have hadvance : s.advance.external = s.external := by
      unfold EventLoop.advance
      split <;> try rfl
      split <;> rfl
    exact congrFun hadvance t
  | queueInLoop caller cb => exact hqueue caller cb fun heq => ha (heq ▸ rfl)
  | runInLoop caller cb =>
    cases caller with
    | loopThread => rfl
    | external u => exact hqueue (.external u) cb fun heq => ha (heq ▸ rfl)
  | quit caller =>
    cases caller with
    | loopThread => rfl
    | external u => exact hother u (fun heq => ha (heq ▸ rfl)) _
  | wakeup caller =>
    have hwakeup : s.wakeup.external = s.external := by rw [s.wakeup_frame]
    cases caller with
    | loopThread => exact congrFun hwakeup t
    | external u =>
      have hset : (s.wakeup.setExternal u .idle).external t = s.wakeup.external t :=
        Function.update_of_ne (fun heq : t = u => ha (heq ▸ rfl)) _ _
      exact hset.trans (congrFun hwakeup t)

/-- The functors that the loop has been given, queued or called directly. -/
def given (s : EventLoop F T) : List F := s.queued ++ s.ranDirectly

/-- Only `queueInLoop` and `runInLoop` give the loop a functor. -/
theorem given_step (s : EventLoop F T) (a : LoopAct F T) :
    (s.step a).given.Perm (s.given ++ a.functor.toList) := by
  have hqueue : ∀ caller cb, (s.queueInLoop caller cb).given.Perm (s.given ++ [cb]) := by
    intro caller cb
    have hgiven : (s.queueInLoop caller cb).given = (s.queued ++ [cb]) ++ s.ranDirectly := by
      cases caller with
      | loopThread =>
        simp only [queueInLoop]
        split
        · rfl
        · rfl
      | external t => rfl
    rw [hgiven, given, List.append_assoc, List.append_assoc]
    exact (List.perm_append_comm).append_left _
  have hsame : ∀ u : EventLoop F T, u.queued = s.queued → u.ranDirectly = s.ranDirectly →
      u.given.Perm (s.given ++ []) := by
    intro u hqueued hran
    rw [given, given, hqueued, hran, List.append_nil]
  cases a with
  | loop => exact hsame _ rfl rfl
  | pollReturns active => exact hsame _ rfl rfl
  | advance =>
    have hadvance : s.advance.queued = s.queued ∧ s.advance.ranDirectly = s.ranDirectly := by
      unfold EventLoop.advance
      split <;> try exact ⟨rfl, rfl⟩
      split <;> exact ⟨rfl, rfl⟩
    exact hsame _ hadvance.1 hadvance.2
  | queueInLoop caller cb => exact hqueue caller cb
  | runInLoop caller cb =>
    cases caller with
    | loopThread =>
      have hran : (s.step (.runInLoop .loopThread cb)).given = s.given ++ [cb] :=
        (List.append_assoc ..).symm
      rw [hran]
      exact .refl _
    | external t => exact hqueue (.external t) cb
  | quit caller =>
    cases caller with
    | loopThread => exact hsame _ rfl rfl
    | external t => exact hsame _ rfl rfl
  | wakeup caller =>
    have hwakeup : s.wakeup.queued = s.queued ∧ s.wakeup.ranDirectly = s.ranDirectly := by
      rw [s.wakeup_frame]
      exact ⟨rfl, rfl⟩
    cases caller with
    | loopThread => exact hsame _ hwakeup.1 hwakeup.2
    | external t => exact hsame _ hwakeup.1 hwakeup.2

end EventLoop

namespace EventLoopThread

/-- A thread of the pool whose loop nobody quits. -/
structure Up (s : EventLoopThread F T) : Prop where
  quit : s.loop.quit_ = false
  thread : s.thread.up = true
  loop_ : s.loop_ = s.thread.hasPublished

variable [DecidableEq T]

/-- `thread_.start()` of a new thread. -/
theorem up_start (callback_ : Bool) :
    ∃ t, (new callback_ : EventLoopThread F T).step .start = some t ∧ t.Up ∧
      t.thread = .started ∧ t.returned = false :=
  ⟨_, rfl, ⟨rfl, rfl, rfl⟩, rfl, rfl⟩

/-- The pieces of `threadFunc` that are left before the loop is entered. -/
def toGo : ThreadPc → Nat
  | .started => 4
  | .inCallback => 3
  | .publishing => 2
  | .published => 1
  | _ => 0

omit [DecidableEq T] in
/-- What is left says whether the loop is published. -/
theorem Up.hasPublished_iff {s : EventLoopThread F T} (h : s.Up) :
    s.thread.hasPublished = true ↔ toGo s.thread ≤ 1 := by
  have hup := h.thread
  cases hthread : s.thread <;> simp_all [ThreadPc.up, ThreadPc.hasPublished, toGo]

/-- The next piece of `threadFunc`. -/
theorem Up.threadFunc {s : EventLoopThread F T} (h : s.Up) (he : s.enabled .threadFunc = true) :
    s.threadFunc.Up ∧ toGo s.threadFunc.thread < toGo s.thread ∧
      s.threadFunc.returned = s.returned := by
  obtain ⟨hquit, hup, hloop⟩ := h
  -- one case for each place in `threadFunc`; the loop is constructed at the first
  cases hthread : s.thread with
  | started =>
    rw [hthread] at hloop
    simp only [EventLoopThread.threadFunc, hthread]
    split
    · exact ⟨⟨rfl, rfl, hloop⟩, by decide, trivial⟩
    · exact ⟨⟨rfl, rfl, hloop⟩, by decide, trivial⟩
  | inCallback =>
    rw [hthread] at hloop
    simp only [EventLoopThread.threadFunc, hthread]
    exact ⟨⟨hquit, rfl, hloop⟩, by decide, trivial⟩
  | publishing =>
    simp only [EventLoopThread.threadFunc, hthread]
    exact ⟨⟨hquit, rfl, rfl⟩, by decide, trivial⟩
  | published =>
    rw [hthread] at hloop
    simp only [EventLoopThread.threadFunc, hthread]
    exact ⟨⟨rfl, rfl, hloop⟩, by decide, trivial⟩
  | inLoop => simp [EventLoopThread.enabled, hthread] at he
  | notStarted => simp [ThreadPc.up, hthread] at hup
  | afterLoop => simp [ThreadPc.up, hthread] at hup
  | leaving => simp [ThreadPc.up, hthread] at hup
  | destroyed => simp [ThreadPc.up, hthread] at hup

/-- What else happens to the thread leaves it where it is. -/
theorem Up.other {s : EventLoopThread F T} (h : s.Up) {a : ThreadAct F T}
    (ha : ServerStart.threadMay a = true) (he : s.enabled a = true) :
    ∃ u, s.step a = some u ∧ u.Up ∧ u.thread = s.thread ∧ u.returned = s.returned := by
  obtain ⟨hquit, hup, hloop⟩ := h
  have hthere : s.thread ≠ .destroyed := by
    intro hgone
    simp [ThreadPc.up, hgone] at hup
  cases a with
  | start => cases ha
  | startLoopReturns => cases ha
  | threadFunc => cases ha
  | startPoll => exact ⟨_, rfl, ⟨hquit, hup, hloop⟩, rfl, rfl⟩
  | loop a =>
    have hnot : a.isQuit = false := by simpa [ServerStart.threadMay] using ha
    have hquit' := EventLoop.quit_step hnot hquit
    refine ⟨s.loopStep a, by rw [EventLoopThread.step, if_neg hthere], ?_⟩
    cases a with
    | advance =>
      -- the test of `quit_` goes on to the poll
      simp only [EventLoopThread.enabled, Bool.and_eq_true, decide_eq_true_eq] at he
      have hin : afterAdvance s.loop.advance.pc = .inLoop := by
        cases hpc : s.loop.advance.pc with
        | notLooping => exact absurd hpc (EventLoop.stays_in_loop he.2 hquit)
        | _ => rfl
      have hthread : (s.loopStep .advance).thread = s.thread := hin.trans he.1.symm
      refine ⟨⟨hquit', ?_, ?_⟩, hthread, rfl⟩
      · rw [hthread]
        exact hup
      · rw [hthread]
        exact hloop
    | _ => exact ⟨⟨hquit', hup, hloop⟩, rfl, rfl⟩

/-- `startLoop` returns. -/
theorem Up.startLoopReturns {s : EventLoopThread F T} (h : s.Up) :
    ∃ u, s.step .startLoopReturns = some u ∧ u.Up ∧ u.thread = s.thread ∧ u.returned = true :=
  ⟨_, rfl, ⟨h.quit, h.thread, h.loop_⟩, rfl, rfl⟩

end EventLoopThread

end RainWebServer.Net
