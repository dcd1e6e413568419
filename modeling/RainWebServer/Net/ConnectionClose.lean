import RainWebServer.Lib.Machine
import RainWebServer.Net.SendOrder

/-!
# The Close of a Connection

Runs of one connection from `connectEstablished` on: events of its channel with any mask,
`send` and `shutdown` on the loop's thread and on other threads, the functors of the loop's
queue (the connection itself lives on), and the chain `removeConnection`,
`removeConnectionInLoop`, `connectDestroyed` that `closeCallback_` starts.

The pieces of one dispatch are separate actions (`todo` holds the callbacks still to be made),
so whatever a user callback does can come between them. On another thread, `send` tests
`state_` and queues `sendInLoop` later; `shutdown` tests it, stores `kDisconnecting` later and
queues `shutdownInLoop` later still.

Two slips let a closed connection come back to life: `sendInLoop` logs that it gives up on a
`kDisconnected` connection and goes on, and the read callback of a dispatch that has closed
the connection closes it again when it reads the end of the stream.

## Main results

- `closeRun_along_clean` : a run in which neither happens closes the connection cleanly
- `closeRun_not_clean` : runs in which they happen
-/

namespace RainWebServer.Net

open RainWebServer.Lib

/-! ## §1 Runs of one connection -/

/-- Where a call on another thread is. -/
inductive ExternalCall where
  | idle
  /-- `send` has seen `kConnected` and has not queued `sendInLoop`. -/
  | sendChecked (data len : Nat)
  /-- `shutdown` has seen `kConnected` and has not stored `kDisconnecting`. -/
  | shutdownChecked
  /-- `shutdown` has stored it and has not queued `shutdownInLoop`. -/
  | shutdownStored
  deriving DecidableEq, Repr

/-- A connection; the callbacks that the current dispatch has still to make; the
    `removeConnectionInLoop` functors in the server's loop; the other threads. -/
structure CloseRun (T : Type) where
  io : ConnIo Unit
  todo : List HandlerOp
  removals : Nat
  external : T → ExternalCall

/-- What can happen to the connection. -/
inductive CloseAct (T : Type) where
  /-- The poller reports the channel. -/
  | event (revents : EventMask)
  /-- The next callback of the dispatch runs, with the answers it may need. -/
  | handler (r : ReadResult) (w : WriteResult)
  | send (msg : List Byte) (w : WriteResult)
  | shutdown
  /-- The first functor of the loop's queue runs; a `sendInLoop` finds `bytes` at its address. -/
  | functor (bytes : List Byte) (w : WriteResult)
  /-- The server's loop runs `removeConnectionInLoop`. -/
  | removeConnectionInLoop
  /-- Another thread calls `send` and tests `state_`. -/
  | externalSend (t : T) (data len : Nat)
  /-- Another thread calls `shutdown` and tests `state_`. -/
  | externalShutdown (t : T)
  /-- Another thread goes on with its call. -/
  | externalNext (t : T)

variable {T : Type}

namespace CloseRun

/-- The connection right after `connectEstablished`. -/
def start (io : ConnIo Unit) : CloseRun T := ⟨io, [], 0, fun _ => .idle⟩

def setIo (s : CloseRun T) (io : ConnIo Unit) : CloseRun T := { s with io := io }

/-- `setState(kDisconnected)` has been called. -/
def closed (s : CloseRun T) : Bool := s.io.trace.contains .disconnected

/-- Which actions can be taken: events come for registered channels between two dispatches,
    functors run outside of dispatches. -/
def enabled (s : CloseRun T) : CloseAct T → Bool
  | .event _ => s.todo.isEmpty && (s.io.poller.interest s.io.conn.channel_.fd_).isSome
  | .handler _ _ => !s.todo.isEmpty
  | .send _ _ | .shutdown => true
  | .functor bytes _ => s.todo.isEmpty && match s.io.queue with
    | [] => false
    | (_, .sendInLoop _ len) :: _ => bytes.length = len
    | _ => true
  | .removeConnectionInLoop => s.removals > 0
  | .externalSend t _ _ | .externalShutdown t => s.external t = .idle
  | .externalNext t => s.external t ≠ .idle

/-- `TcpServer::removeConnection`: it runs `removeConnectionInLoop` at once when the server's
    loop is the connection's, and queues it otherwise. -/
def removeConnection (sameLoop : Bool) (s : CloseRun T) : CloseRun T :=
  if sameLoop then s.setIo (s.io.queueInLoop .connectDestroyed)
  else { s with removals := s.removals + 1 }

/-- The next callback of the dispatch. -/
def handler (sameLoop : Bool) (s : CloseRun T) (r : ReadResult) (w : WriteResult) :
    Option (CloseRun T) :=
  match s.todo with
  | [] => some s
  | op :: todo => do
    let (io, ops) ← s.io.runHandler r w op
    let s := { s with io := io, todo := ops ++ todo }
    some (if op = .closeCallback then s.removeConnection sameLoop else s)

/-- A functor taken from the queue. -/
def runFunctor (io : ConnIo Unit) (bytes : List Byte) (w : WriteResult) :
    ConnFunctor → Option (ConnIo Unit)
  | .sendInLoop _ _ => io.sendInLoop bytes w
  | .shutdownInLoop => some io.shutdownInLoop
  | .connectDestroyed => io.connectDestroyed
  -- a user callback, whose calls are actions of their own; no other kind is queued here
  | _ => some io

/-- The first functor of the queue runs. -/
def functor (s : CloseRun T) (bytes : List Byte) (w : WriteResult) : Option (CloseRun T) :=
  match s.io.queue with
  | [] => some s
  | (_, f) :: queue => (runFunctor { s.io with queue := queue } bytes w f).map s.setIo

variable [DecidableEq T]

def setExternal (s : CloseRun T) (t : T) (call : ExternalCall) : CloseRun T :=
  { s with external := Function.update s.external t call }

/-- The rest of a call on another thread, one access to shared data at a time. -/
def externalNext (s : CloseRun T) (t : T) : CloseRun T :=
  match s.external t with
  | .idle => s
  | .sendChecked data len =>
    (s.setIo (s.io.queueInLoop (.sendInLoop data len))).setExternal t .idle
  | .shutdownChecked => (s.setIo (s.io.setState .kDisconnecting)).setExternal t .shutdownStored
  | .shutdownStored => (s.setIo (s.io.queueInLoop .shutdownInLoop)).setExternal t .idle

/-- The effect of an action. -/
def step (sameLoop : Bool) (s : CloseRun T) : CloseAct T → Option (CloseRun T)
  | .event revents =>
    some { s with io := s.io.setRevents revents, todo := handleEventWithGuard revents }
  | .handler r w => s.handler sameLoop r w
  | .send msg w => (s.io.send msg w).map s.setIo
  | .shutdown => some (s.setIo s.io.shutdown)
  | .functor bytes w => s.functor bytes w
  | .removeConnectionInLoop =>
    some { s with removals := s.removals - 1, io := s.io.queueInLoop .connectDestroyed }
  | .externalSend t data len =>
    some (if s.io.connected then s.setExternal t (.sendChecked data len) else s)
  | .externalShutdown t => some (if s.io.connected then s.setExternal t .shutdownChecked else s)
  | .externalNext t => some (s.externalNext t)

end CloseRun

/-- Runs of one connection; `sameLoop` says whether the server's loop is the connection's. -/
def closeMachine [DecidableEq T] (sameLoop : Bool) : Machine (CloseRun T) (CloseAct T) :=
  ⟨CloseRun.enabled, CloseRun.step sameLoop⟩

/-! ## §2 A clean close -/

/-- The values of `connected()` in the calls of `connectionCallback_`, in order. -/
def connectionCallbacks (trace : List ConnEvent) : List Bool :=
  trace.filterMap fun
    | .connectionCallback connected => some connected
    | _ => none

/-- The event is a `::write` on the socket. -/
def ConnEvent.isWrite : ConnEvent → Bool
  | .write _ => true
  | _ => false

/-- `connectionCallback_` fires once with `connected()` true and then at most once with it
    false, `closeCallback_` at most once; after `setState(kDisconnected)` there is no `::write`
    and the mask of the channel stays empty. -/
structure CloseRun.Clean (s : CloseRun T) : Prop where
  callbacks : connectionCallbacks s.io.trace = [true] ∨
    connectionCallbacks s.io.trace = [true, false]
  close : s.io.trace.count .closeCallback ≤ 1
  no_write : ∀ before after, s.io.trace = before ++ .disconnected :: after →
    ∀ e ∈ after, e.isWrite = false
  events : .disconnected ∈ s.io.trace → s.io.conn.channel_.events_ = kNoneEvent

/-- The step does not run into one of the two slips: no queued `sendInLoop` runs on a closed
    connection, and no read callback reads the end of the stream on one. -/
def CloseRun.sound (s : CloseRun T) : CloseAct T → Bool
  | .functor _ _ => match s.io.queue with
    | (_, .sendInLoop _ _) :: _ => !s.closed
    | _ => true
  | .handler r _ => match s.todo with
    | .handleRead :: _ => !(s.closed && r = .bytes [])
    | _ => true
  | _ => true

/-! ## §3 The invariant -/

/-- Callbacks that come after the close in a dispatch. -/
def IsTail (ops : List HandlerOp) : Prop :=
  ∀ op ∈ ops, op = .handleError ∨ op = .handleRead ∨ op = .handleWrite

/-- The event is none of those that a clean close counts. -/
def ConnEvent.isTraffic : ConnEvent → Bool
  | .write _ | .sendfile _ | .shutdownWrite | .messageCallback => true
  | _ => false

/-- What came after has no `::write`. -/
def NoWriteAfter (_before after : List ConnEvent) : Prop := ∀ e ∈ after, e.isWrite = false

theorem NoWriteAfter.append {before after es : List ConnEvent} (h : NoWriteAfter before after)
    (hes : ∀ e ∈ es, e.isWrite = false) : NoWriteAfter before (after ++ es) := by
  intro e he
  exact (List.mem_append.mp he).elim (h e) (hes e)

/-- The connection has not been closed: it is open, and the current dispatch may still be
    about to close it. -/
structure CloseRun.Opened (s : CloseRun T) : Prop where
  isOpen : s.io.Open
  state : s.io.conn.state_ = .kConnected ∨ s.io.conn.state_ = .kDisconnecting
  todo : IsTail s.todo ∨ ∃ rest, s.todo = .handleClose :: .closeCallback :: rest ∧ IsTail rest
  callbacks : connectionCallbacks s.io.trace = [true]
  not_disconnected : .disconnected ∉ s.io.trace
  not_closed : .closeCallback ∉ s.io.trace
  queue : ∀ f ∈ s.io.queue, f.2 ≠ .connectDestroyed
  removals : s.removals = 0

/-- The connection has been closed once; `closeCallback_` has been called or comes next. -/
structure CloseRun.Finished (s : CloseRun T) : Prop where
  isClosed : s.io.Closed
  state : s.io.conn.state_ ≠ .kConnected
  disconnected : .disconnected ∈ s.io.trace
  todo : (IsTail s.todo ∧ s.io.trace.count .closeCallback = 1) ∨
    ∃ rest, s.todo = .closeCallback :: rest ∧ IsTail rest ∧
      s.io.trace.count .closeCallback = 0
  callbacks : connectionCallbacks s.io.trace = [true, false]
  no_write : AtEach .disconnected NoWriteAfter s.io.trace

/-- The invariant of sound runs. -/
def CloseInv (s : CloseRun T) : Prop := s.Opened ∨ s.Finished

@[simp] theorem connectionCallbacks_append (es₁ es₂ : List ConnEvent) :
    connectionCallbacks (es₁ ++ es₂) = connectionCallbacks es₁ ++ connectionCallbacks es₂ :=
  List.filterMap_append

theorem connectionCallbacks_of_traffic {es : List ConnEvent} (h : ∀ e ∈ es, e.isTraffic = true) :
    connectionCallbacks es = [] := by
  apply List.filterMap_eq_nil_iff.mpr
  intro e he
  have htraffic := h e he
  cases e <;> first | rfl | cases htraffic

theorem not_mem_of_traffic {es : List ConnEvent} {e : ConnEvent}
    (h : ∀ e ∈ es, e.isTraffic = true) (he : e.isTraffic = false) : e ∉ es := by
  intro hmem
  rw [h e hmem] at he
  cases he

/-- A dispatch makes its calls in the order that `Opened` expects. -/
theorem handleEventWithGuard_todo (revents : EventMask) :
    IsTail (handleEventWithGuard revents) ∨
      ∃ rest, handleEventWithGuard revents = .handleClose :: .closeCallback :: rest ∧
        IsTail rest := by
  have htail : IsTail ((if revents.has EPOLLERR then [HandlerOp.handleError] else []) ++
      (if revents.has (EPOLLIN ||| EPOLLPRI) then [.handleRead] else []) ++
      (if revents.has EPOLLOUT then [.handleWrite] else [])) := by
    intro op hop
    simp only [List.mem_append] at hop
    rcases hop with (hop | hop) | hop
    · split at hop <;> simp_all
    · split at hop <;> simp_all
    · split at hop <;> simp_all
  unfold handleEventWithGuard
  split
  · refine .inr ⟨_, ?_, htail⟩
    simp only [List.append_assoc, List.cons_append, List.nil_append]
  · exact .inl (by simpa only [List.nil_append] using htail)

/-! ## §4 Steps of an open connection -/

namespace CloseRun

/-- A call that leaves the connection open and does only traffic. -/
theorem Opened.extend {s : CloseRun T} {io' : ConnIo Unit} {fs : List ConnFunctor}
    {es : List ConnEvent} (h : s.Opened) (hext : s.io.Extends io' fs es) (hopen : io'.Open)
    (hstate : io'.conn.state_ = .kConnected ∨ io'.conn.state_ = .kDisconnecting)
    (hfs : .connectDestroyed ∉ fs) (hes : ∀ e ∈ es, e.isTraffic = true) :
    (s.setIo io').Opened where
  isOpen := hopen
  state := hstate
  todo := h.todo
  callbacks := by
    show connectionCallbacks io'.trace = [true]
    rw [hext.trace, connectionCallbacks_append, connectionCallbacks_of_traffic hes,
      List.append_nil, h.callbacks]
  not_disconnected := by
    show .disconnected ∉ io'.trace
    rw [hext.trace, List.mem_append, not_or]
    exact ⟨h.not_disconnected, not_mem_of_traffic hes rfl⟩
  not_closed := by
    show .closeCallback ∉ io'.trace
    rw [hext.trace, List.mem_append, not_or]
    exact ⟨h.not_closed, not_mem_of_traffic hes rfl⟩
  queue := by
    show ∀ f ∈ io'.queue, f.2 ≠ .connectDestroyed
    rw [hext.queue]
    intro f hf
    rcases List.mem_append.mp hf with hf | hf
    · exact h.queue f hf
    · obtain ⟨f', hf', rfl⟩ := List.mem_map.mp hf
      rintro rfl
      exact hfs hf'
  removals := h.removals

theorem not_mem_of_isUser {fs : List ConnFunctor} (h : ∀ f ∈ fs, f.isUser = true) :
    .connectDestroyed ∉ fs := by
  intro hmem
  cases h _ hmem

/-- `sendInLoop` on an open connection. -/
theorem Opened.sendInLoop {s : CloseRun T} (h : s.Opened) (data : List Byte) (w : WriteResult) :
    ∃ io', s.io.sendInLoop data w = some io' ∧ (s.setIo io').Opened := by
  obtain ⟨io', fs, es, hsend, hext, huser, hes, hopen, hstate, -⟩ :=
    ConnIo.sendInLoop_spec h.isOpen data w
  refine ⟨io', hsend, h.extend hext hopen (hstate ▸ h.state) (not_mem_of_isUser huser) ?_⟩
  rcases hes with rfl | ⟨accepted, rfl⟩ <;> simp [ConnEvent.isTraffic]

/-- `handleWrite` on an open connection. -/
theorem Opened.handleWrite {s : CloseRun T} (h : s.Opened) (w : WriteResult) :
    ∃ io', s.io.handleWrite w = some io' ∧ (s.setIo io').Opened := by
  obtain ⟨io', fs, es, hwrite, hdrain⟩ := ConnIo.handleWrite_spec h.isOpen w
  refine ⟨io', hwrite, h.extend hdrain.ext hdrain.isOpen (hdrain.state ▸ h.state)
    (not_mem_of_isUser hdrain.user) ?_⟩
  rcases hdrain.events with rfl | ⟨accepted, rfl⟩ | ⟨accepted, rfl, -⟩ <;>
    simp [ConnEvent.isTraffic]

/-- `shutdownInLoop` on an open connection. -/
theorem Opened.shutdownInLoop {s : CloseRun T} (h : s.Opened) :
    (s.setIo s.io.shutdownInLoop).Opened := by
  unfold ConnIo.shutdownInLoop
  split
  · exact h.extend (ConnIo.Extends.record _ _) (h.isOpen.record _) h.state (by simp)
      (by simp [ConnEvent.isTraffic])
  · exact h

/-- `setState(kDisconnecting)` on an open connection. -/
theorem Opened.setDisconnecting {s : CloseRun T} (h : s.Opened) :
    (s.setIo (s.io.setState .kDisconnecting)).Opened :=
  h.extend (ConnIo.Extends.setState _ _) (h.isOpen.setState _) (.inr rfl) (by simp) (by simp)

/-- **The close itself**: `handleClose` on an open connection. -/
theorem Opened.handleClose {s : CloseRun T} (h : s.Opened) {rest : List HandlerOp}
    (hrest : IsTail rest) :
    ∃ io', s.io.handleClose = some io' ∧
      Finished { s with io := io', todo := .closeCallback :: rest } := by
  obtain ⟨io', hdisc, hclosed, hstate, -, hext⟩ := ConnIo.disconnect_spec h.isOpen
  have htrace : io'.trace = s.io.trace ++ [.disconnected, .connectionCallback false] := hext.trace
  refine ⟨io', hdisc, hclosed, ?_, ?_, .inr ⟨rest, rfl, hrest, ?_⟩, ?_, ?_⟩
  · rw [hstate]
    nofun
  · simp [htrace]
  · simp [htrace, List.count_eq_zero_of_not_mem h.not_closed]
  · show connectionCallbacks io'.trace = [true, false]
    rw [htrace, connectionCallbacks_append, h.callbacks]
    rfl
  · show AtEach _ _ io'.trace
    have hfirst : s.io.trace ++ [.disconnected, .connectionCallback false] =
        s.io.trace ++ [.disconnected] ++ [.connectionCallback false] := by simp
    rw [htrace, hfirst]
    refine AtEach.append (AtEach.snoc (atEach_of_not_mem h.not_disconnected) ?_ ?_) (by simp) ?_
    · exact fun e he => absurd he List.not_mem_nil
    · exact fun _ _ hafter => hafter.append (by simp [ConnEvent.isWrite])
    · exact fun _ _ hafter => hafter.append (by simp [ConnEvent.isWrite])

theorem Opened.setTodo {s : CloseRun T} (h : s.Opened) {todo : List HandlerOp}
    (htodo : IsTail todo ∨ ∃ rest, todo = .handleClose :: .closeCallback :: rest ∧ IsTail rest) :
    Opened { s with todo := todo } :=
  ⟨h.isOpen, h.state, htodo, h.callbacks, h.not_disconnected, h.not_closed, h.queue, h.removals⟩

/-- `handleRead` on an open connection: at the end of the stream the close comes next. -/
theorem Opened.handleRead {s : CloseRun T} (h : s.Opened) (r : ReadResult)
    {rest : List HandlerOp} (hrest : IsTail rest) :
    ∃ io' ops, s.io.handleRead r = some (io', ops) ∧ (s.setIo io').Opened ∧
      (IsTail (ops ++ rest) ∨
        ∃ rest', ops ++ rest = .handleClose :: .closeCallback :: rest' ∧ IsTail rest') := by
  cases r with
  | error =>
    refine ⟨s.io, [.handleError], rfl, h, .inl ?_⟩
    intro op hop
    exact (List.mem_cons.mp hop).elim (fun heq => .inl heq) (hrest op)
  | bytes data =>
    by_cases hpos : data.length > 0
    · obtain ⟨buffer, hbuffer, hwf, -⟩ := Buffer.readFd_spec h.isOpen.inputWF data
      refine ⟨(s.io.setInputBuffer buffer).record .messageCallback, [], ?_, ?_, .inl hrest⟩
      · simp only [ConnIo.handleRead, if_pos hpos, hbuffer, Option.bind_eq_bind, Option.bind_some]
      · apply h.extend ((ConnIo.Extends.setInputBuffer _ _).trans (ConnIo.Extends.record _ _))
        · exact ⟨h.isOpen.agrees, h.isOpen.added, h.isOpen.events, h.isOpen.outputWF, hwf⟩
        · exact h.state
        · simp
        · simp [ConnEvent.isTraffic]
    · exact ⟨s.io, _, if_neg hpos, h, .inr ⟨rest, rfl, hrest⟩⟩

/-- One callback of a dispatch on an open connection. -/
theorem Opened.handler {s : CloseRun T} (h : s.Opened) {sameLoop : Bool} {r : ReadResult}
    {w : WriteResult} {t : CloseRun T} (hstep : s.handler sameLoop r w = some t) :
    CloseInv t := by
  rcases h.todo with htail | ⟨rest, htodo, hrest⟩
  · cases htodo : s.todo with
    | nil =>
      simp only [CloseRun.handler, htodo, Option.some.injEq] at hstep
      exact .inl (hstep ▸ h)
    | cons op rest =>
      rw [htodo] at htail
      have hrest : IsTail rest := fun op' hop' => htail op' (List.mem_cons_of_mem op hop')
      rcases htail op List.mem_cons_self with rfl | rfl | rfl
      · -- `handleError` only logs
        simp only [CloseRun.handler, htodo, ConnIo.runHandler, Option.bind_eq_bind,
          Option.bind_some, List.nil_append, Option.some.injEq] at hstep
        exact .inl (hstep ▸ h.setTodo (.inl hrest))
      · -- a read of no bytes asks for the close; it becomes part of the dispatch
        obtain ⟨io', ops, hread, hopened, hops⟩ := h.handleRead r hrest
        simp only [CloseRun.handler, htodo, ConnIo.runHandler, hread, Option.bind_eq_bind,
          Option.bind_some, Option.some.injEq] at hstep
        exact .inl (hstep ▸ hopened.setTodo hops)
      · obtain ⟨io', hwrite, hopened⟩ := h.handleWrite w
        simp only [CloseRun.handler, htodo, ConnIo.runHandler, hwrite, Option.map_some,
          Option.bind_eq_bind, Option.bind_some, List.nil_append, Option.some.injEq] at hstep
        exact .inl (hstep ▸ hopened.setTodo (.inl hrest))
  · -- the dispatch closes the connection
    obtain ⟨io', hclose, hfin⟩ := h.handleClose hrest
    simp only [CloseRun.handler, htodo, ConnIo.runHandler, hclose, Option.map_some,
      Option.bind_eq_bind, Option.bind_some, List.nil_append, Option.some.injEq] at hstep
    exact .inr (hstep ▸ hfin)

/-- Taking functors from the queue leaves the connection open. -/
theorem Opened.setQueue {s : CloseRun T} (h : s.Opened) {queue : List (Unit × ConnFunctor)}
    (hqueue : ∀ f ∈ queue, f.2 ≠ .connectDestroyed) :
    (s.setIo { s.io with queue := queue }).Opened :=
  ⟨⟨h.isOpen.agrees, h.isOpen.added, h.isOpen.events, h.isOpen.outputWF, h.isOpen.inputWF⟩,
    h.state, h.todo, h.callbacks, h.not_disconnected, h.not_closed, hqueue, h.removals⟩

/-- Any functor but `connectDestroyed` may be queued on an open connection. -/
theorem Opened.queueInLoop {s : CloseRun T} (h : s.Opened) {f : ConnFunctor}
    (hf : f ≠ .connectDestroyed) : (s.setIo (s.io.queueInLoop f)).Opened :=
  h.extend (ConnIo.Extends.queueInLoop _ _) (h.isOpen.queueInLoop _) h.state
    (fun hmem => hf (List.mem_singleton.mp hmem).symm) (by simp)

/-- The first functor of the queue runs on an open connection. -/
theorem Opened.functor {s : CloseRun T} (h : s.Opened) {bytes : List Byte} {w : WriteResult}
    {t : CloseRun T} (hstep : s.functor bytes w = some t) : t.Opened := by
  unfold CloseRun.functor at hstep
  cases hqueue : s.io.queue with
  | nil =>
    simp only [hqueue, Option.some.injEq] at hstep
    exact hstep ▸ h
  | cons head queue =>
    obtain ⟨ptr, f⟩ := head
    have hmem := h.queue
    rw [hqueue] at hmem
    -- the functor is off the queue before it runs
    have h' := h.setQueue (fun f' hf' => hmem f' (List.mem_cons_of_mem _ hf'))
    simp only [hqueue] at hstep
    cases f with
    | sendInLoop data len =>
      obtain ⟨io', hsend, hopened⟩ := h'.sendInLoop bytes w
      have hrun : runFunctor { s.io with queue := queue } bytes w (.sendInLoop data len) =
          some io' := hsend
      rw [hrun, Option.map_some, Option.some.injEq] at hstep
      exact hstep ▸ hopened
    | shutdownInLoop =>
      simp only [runFunctor, Option.map_some, Option.some.injEq] at hstep
      exact hstep ▸ h'.shutdownInLoop
    | connectDestroyed => exact absurd rfl (hmem _ List.mem_cons_self)
    | _ =>
      simp only [runFunctor, Option.map_some, Option.some.injEq] at hstep
      exact hstep ▸ h'

/-! ## §5 Steps of a closed connection -/

/-- A call that leaves the connection closed and writes nothing. -/
theorem Finished.extend {s : CloseRun T} {io' : ConnIo Unit} {es : List ConnEvent}
    (h : s.Finished) (hclosed : io'.Closed) (hstate : io'.conn.state_ ≠ .kConnected)
    (htrace : io'.trace = s.io.trace ++ es) (hes : ∀ e ∈ es, e.isTraffic = true)
    (hwrite : ∀ e ∈ es, e.isWrite = false) : (s.setIo io').Finished := by
  have hcount : io'.trace.count .closeCallback = s.io.trace.count .closeCallback := by
    rw [htrace, List.count_append, List.count_eq_zero_of_not_mem (not_mem_of_traffic hes rfl),
      Nat.add_zero]
  refine ⟨hclosed, hstate, ?_, ?_, ?_, ?_⟩
  · show .disconnected ∈ io'.trace
    rw [htrace]
    exact List.mem_append_left _ h.disconnected
  · show (IsTail s.todo ∧ io'.trace.count .closeCallback = 1) ∨ ∃ rest, s.todo =
      .closeCallback :: rest ∧ IsTail rest ∧ io'.trace.count .closeCallback = 0
    rw [hcount]
    exact h.todo
  · show connectionCallbacks io'.trace = [true, false]
    rw [htrace, connectionCallbacks_append, connectionCallbacks_of_traffic hes, List.append_nil,
      h.callbacks]
  · show AtEach _ _ io'.trace
    rw [htrace]
    exact AtEach.append h.no_write (not_mem_of_traffic hes rfl)
      (fun _ _ hafter => hafter.append hwrite)

/-- A change that the invariant of a closed connection does not read. -/
theorem Finished.frame {s : CloseRun T} (h : s.Finished) {t : CloseRun T}
    (hconn : t.io.conn = s.io.conn) (hpoller : t.io.poller = s.io.poller)
    (htrace : t.io.trace = s.io.trace) (htodo : t.todo = s.todo) : t.Finished := by
  obtain ⟨⟨hagrees, hadded, hevents, hwf⟩, hstate, hdisc, htodo', hcallbacks, hnowrite⟩ := h
  refine ⟨⟨?_, hconn ▸ hadded, hconn ▸ hevents, hconn ▸ hwf⟩, hconn ▸ hstate, htrace ▸ hdisc,
    ?_, htrace ▸ hcallbacks, htrace ▸ hnowrite⟩
  · show t.io.poller.Agrees t.io.ptr t.io.conn.channel_
    rw [hconn, hpoller]
    exact hagrees
  · rw [htodo, htrace]
    exact htodo'

/-- The rest of a dispatch after the close, but for `closeCallback_`. -/
theorem Finished.setTodo {s : CloseRun T} (h : s.Finished) {todo : List HandlerOp}
    (htodo : IsTail todo) (hcount : s.io.trace.count .closeCallback = 1) :
    Finished { s with todo := todo } :=
  ⟨h.isClosed, h.state, h.disconnected, .inl ⟨htodo, hcount⟩, h.callbacks, h.no_write⟩

/-- `handleRead` on a closed connection, if it does not read the end of the stream. -/
theorem Finished.handleRead {s : CloseRun T} (h : s.Finished) {r : ReadResult}
    (hr : r ≠ .bytes []) :
    ∃ io' ops, s.io.handleRead r = some (io', ops) ∧ (s.setIo io').Finished ∧ IsTail ops := by
  cases r with
  | error => exact ⟨s.io, _, rfl, h, by simp [IsTail]⟩
  | bytes data =>
    have hpos : data.length > 0 := by
      cases data with
      | nil => exact absurd rfl hr
      | cons byte data => exact Nat.succ_pos _
    obtain ⟨buffer, hbuffer, hwf, -⟩ := Buffer.readFd_spec h.isClosed.inputWF data
    refine ⟨(s.io.setInputBuffer buffer).record .messageCallback, [], ?_, ?_, by simp [IsTail]⟩
    · simp only [ConnIo.handleRead, if_pos hpos, hbuffer, Option.bind_eq_bind, Option.bind_some]
    · exact h.extend ⟨h.isClosed.agrees, h.isClosed.not_added, h.isClosed.events, hwf⟩ h.state rfl
        (by simp [ConnEvent.isTraffic]) (by simp [ConnEvent.isWrite])

/-- `closeCallback_` is called, once. -/
theorem Finished.closeCallback {s : CloseRun T} (h : s.Finished) {rest : List HandlerOp}
    (hrest : IsTail rest) (hcount : s.io.trace.count .closeCallback = 0) :
    Finished { s with io := s.io.record .closeCallback, todo := rest } := by
  refine ⟨⟨h.isClosed.agrees, h.isClosed.not_added, h.isClosed.events, h.isClosed.inputWF⟩,
    h.state, List.mem_append_left _ h.disconnected, .inl ⟨hrest, ?_⟩, ?_, ?_⟩
  · show (s.io.trace ++ [ConnEvent.closeCallback]).count .closeCallback = 1
    rw [List.count_append, hcount]
    rfl
  · show connectionCallbacks (s.io.trace ++ [.closeCallback]) = [true, false]
    rw [connectionCallbacks_append, h.callbacks]
    rfl
  · show AtEach _ _ (s.io.trace ++ [.closeCallback])
    exact AtEach.append h.no_write (by simp)
      (fun _ _ hafter => hafter.append (by simp [ConnEvent.isWrite]))

/-- `removeConnection` does nothing to the connection itself. -/
theorem Finished.removeConnection {s : CloseRun T} (h : s.Finished) (sameLoop : Bool) :
    (s.removeConnection sameLoop).Finished := by
  unfold CloseRun.removeConnection
  split
  · exact h.frame rfl rfl rfl rfl
  · exact h.frame rfl rfl rfl rfl

/-- One callback of a dispatch on a closed connection, if the step is sound. -/
theorem Finished.handler {s : CloseRun T} (h : s.Finished) {sameLoop : Bool} {r : ReadResult}
    {w : WriteResult} {t : CloseRun T} (hsound : s.sound (.handler r w) = true)
    (hstep : s.handler sameLoop r w = some t) : t.Finished := by
  rcases h.todo with ⟨htail, hcount⟩ | ⟨rest, htodo, hrest, hcount⟩
  · cases htodo : s.todo with
    | nil =>
      simp only [CloseRun.handler, htodo, Option.some.injEq] at hstep
      exact hstep ▸ h
    | cons op rest =>
      rw [htodo] at htail
      have hrest : IsTail rest := fun op' hop' => htail op' (List.mem_cons_of_mem op hop')
      rcases htail op List.mem_cons_self with rfl | rfl | rfl
      · simp only [CloseRun.handler, htodo, ConnIo.runHandler, Option.bind_eq_bind,
          Option.bind_some, List.nil_append, Option.some.injEq] at hstep
        exact hstep ▸ h.setTodo hrest hcount
      · -- the read callback: the end of the stream would close the connection again
        have hr : r ≠ .bytes [] := by
          rintro rfl
          simp [sound, htodo, closed, h.disconnected] at hsound
        obtain ⟨io', ops, hread, hfin, hops⟩ := h.handleRead hr
        simp only [CloseRun.handler, htodo, ConnIo.runHandler, hread, Option.bind_eq_bind,
          Option.bind_some, Option.some.injEq] at hstep
        have hcount' : io'.trace.count .closeCallback = 1 := by
          rcases hfin.todo with ⟨-, hc⟩ | ⟨rest', htodo', -, -⟩
          · exact hc
          · have hhead : s.todo = HandlerOp.closeCallback :: rest' := htodo'
            rw [htodo] at hhead
            cases hhead
        refine hstep ▸ hfin.setTodo ?_ hcount'
        intro op' hop'
        exact (List.mem_append.mp hop').elim (hops op') (hrest op')
      · simp only [CloseRun.handler, htodo, ConnIo.runHandler,
          ConnIo.handleWrite_of_closed h.isClosed, Option.map_some, Option.bind_eq_bind,
          Option.bind_some, List.nil_append, Option.some.injEq] at hstep
        exact hstep ▸ h.setTodo hrest hcount
  · -- `closeCallback_` comes next
    simp only [CloseRun.handler, htodo, ConnIo.runHandler, Option.bind_eq_bind, Option.bind_some,
      List.nil_append, Option.some.injEq, if_true] at hstep
    exact hstep ▸ (h.closeCallback hrest hcount).removeConnection sameLoop

/-- The first functor of the queue runs on a closed connection, if the step is sound. -/
theorem Finished.functor {s : CloseRun T} (h : s.Finished) {bytes : List Byte} {w : WriteResult}
    {t : CloseRun T} (hsound : s.sound (.functor bytes w) = true)
    (hstep : s.functor bytes w = some t) : t.Finished := by
  unfold CloseRun.functor at hstep
  cases hqueue : s.io.queue with
  | nil =>
    simp only [hqueue, Option.some.injEq] at hstep
    exact hstep ▸ h
  | cons head queue =>
    obtain ⟨ptr, f⟩ := head
    have h' : (s.setIo { s.io with queue := queue }).Finished := h.frame rfl rfl rfl rfl
    simp only [hqueue] at hstep
    cases f with
    -- a `sendInLoop` that comes after the close is what a sound run excludes
    | sendInLoop data len => simp [sound, hqueue, closed, h.disconnected] at hsound
    | shutdownInLoop =>
      simp only [runFunctor, Option.map_some, Option.some.injEq] at hstep
      rw [← hstep]
      unfold ConnIo.shutdownInLoop
      split
      · exact h'.extend ⟨h'.isClosed.agrees, h'.isClosed.not_added, h'.isClosed.events,
          h'.isClosed.inputWF⟩ h'.state rfl (by simp [ConnEvent.isTraffic])
          (by simp [ConnEvent.isWrite])
      · exact h'
    | connectDestroyed =>
      obtain ⟨io', hdestroy, hclosed, hstate, -, hext⟩ :=
        ConnIo.connectDestroyed_spec h'.isClosed h'.state
      have hrun : runFunctor { s.io with queue := queue } bytes w .connectDestroyed = some io' :=
        hdestroy
      rw [hrun, Option.map_some, Option.some.injEq] at hstep
      exact hstep ▸ h'.extend hclosed (hstate ▸ h'.state) hext.trace (by simp) (by simp)
    | _ =>
      simp only [runFunctor, Option.map_some, Option.some.injEq] at hstep
      exact hstep ▸ h'

/-- No event comes for a closed connection. -/
theorem Finished.not_registered {s : CloseRun T} (h : s.Finished) :
    s.io.poller.interest s.io.conn.channel_.fd_ = none :=
  h.isClosed.agrees.interest_eq.trans (if_neg h.isClosed.not_added)

end CloseRun

/-! ## §6 Sound runs -/

variable [DecidableEq T]

theorem CloseRun.Opened.setExternal {s : CloseRun T} (h : s.Opened) (u : T)
    (call : ExternalCall) : (s.setExternal u call).Opened :=
  ⟨h.isOpen, h.state, h.todo, h.callbacks, h.not_disconnected, h.not_closed, h.queue, h.removals⟩

/-- A step of an open connection. -/
theorem CloseRun.Opened.step {s t : CloseRun T} (h : s.Opened) {sameLoop : Bool} {a : CloseAct T}
    (he : s.enabled a = true) (hstep : s.step sameLoop a = some t) : CloseInv t := by
  cases a with
  | event revents =>
    simp only [CloseRun.step, Option.some.injEq] at hstep
    have h' : (s.setIo (s.io.setRevents revents)).Opened :=
      ⟨h.isOpen.setRevents revents, h.state, h.todo, h.callbacks, h.not_disconnected,
        h.not_closed, h.queue, h.removals⟩
    exact .inl (hstep ▸ h'.setTodo (handleEventWithGuard_todo revents))
  | handler r w => exact h.handler hstep
  | send msg w =>
    simp only [CloseRun.step, ConnIo.send] at hstep
    split at hstep
    · obtain ⟨io', hsend, hopened⟩ := h.sendInLoop msg w
      rw [hsend, Option.map_some, Option.some.injEq] at hstep
      exact .inl (hstep ▸ hopened)
    · rw [Option.map_some, Option.some.injEq] at hstep
      exact .inl (hstep ▸ h)
  | shutdown =>
    simp only [CloseRun.step, ConnIo.shutdown, Option.some.injEq] at hstep
    rw [← hstep]
    split
    · exact .inl h.setDisconnecting.shutdownInLoop
    · exact .inl h
  | functor bytes w => exact .inl (h.functor hstep)
  | removeConnectionInLoop =>
    -- nobody has asked for the removal of an open connection
    rw [CloseRun.enabled, h.removals] at he
    cases he
  | externalSend u data len =>
    simp only [CloseRun.step, Option.some.injEq] at hstep
    rw [← hstep]
    split
    · exact .inl (h.setExternal u _)
    · exact .inl h
  | externalShutdown u =>
    simp only [CloseRun.step, Option.some.injEq] at hstep
    rw [← hstep]
    split
    · exact .inl (h.setExternal u _)
    · exact .inl h
  | externalNext u =>
    simp only [CloseRun.step, Option.some.injEq] at hstep
    rw [← hstep]
    -- the other thread goes on from its check: the state may have changed since
    unfold CloseRun.externalNext
    cases s.external u with
    | idle => exact .inl h
    | sendChecked data len =>
      exact .inl ((h.queueInLoop (f := .sendInLoop data len) (by simp)).setExternal u .idle)
    | shutdownChecked => exact .inl (h.setDisconnecting.setExternal u .shutdownStored)
    | shutdownStored =>
      exact .inl ((h.queueInLoop (f := .shutdownInLoop) (by simp)).setExternal u .idle)

/-- A sound step of a closed connection. -/
theorem CloseRun.Finished.step {s t : CloseRun T} (h : s.Finished) {sameLoop : Bool}
    {a : CloseAct T} (he : s.enabled a = true) (hsound : s.sound a = true)
    (hstep : s.step sameLoop a = some t) : t.Finished := by
  cases a with
  | event revents =>
    rw [CloseRun.enabled, h.not_registered] at he
    simp at he
  | handler r w => exact h.handler hsound hstep
  | send msg w =>
    simp only [CloseRun.step, ConnIo.send, if_neg h.state, Option.map_some,
      Option.some.injEq] at hstep
    exact hstep ▸ h
  | shutdown =>
    simp only [CloseRun.step, ConnIo.shutdown, if_neg h.state, Option.some.injEq] at hstep
    exact hstep ▸ h
  | functor bytes w => exact h.functor hsound hstep
  | removeConnectionInLoop =>
    simp only [CloseRun.step, Option.some.injEq] at hstep
    exact hstep ▸ h.frame rfl rfl rfl rfl
  | externalSend u data len =>
    simp only [CloseRun.step, Option.some.injEq] at hstep
    rw [← hstep]
    split
    · exact h.frame rfl rfl rfl rfl
    · exact h
  | externalShutdown u =>
    simp only [CloseRun.step, Option.some.injEq] at hstep
    rw [← hstep]
    split
    · exact h.frame rfl rfl rfl rfl
    · exact h
  | externalNext u =>
    simp only [CloseRun.step, Option.some.injEq] at hstep
    rw [← hstep]
    unfold CloseRun.externalNext
    cases s.external u with
    | idle => exact h
    | sendChecked data len => exact h.frame rfl rfl rfl rfl
    | shutdownChecked =>
      -- the late store of `kDisconnecting` does not bring the connection back
      have h' : (s.setIo (s.io.setState .kDisconnecting)).Finished :=
        h.extend ⟨h.isClosed.agrees, h.isClosed.not_added, h.isClosed.events,
          h.isClosed.inputWF⟩ (by simp [ConnIo.setState]) (List.append_nil _).symm (by simp)
          (by simp)
      exact h'.frame rfl rfl rfl rfl
    | shutdownStored => exact h.frame rfl rfl rfl rfl

omit [DecidableEq T] in
/-- Both phases of a sound run are clean. -/
theorem CloseInv.clean {s : CloseRun T} (h : CloseInv s) : s.Clean := by
  rcases h with h | h
  · refine ⟨.inl h.callbacks, ?_, ?_, fun hmem => absurd hmem h.not_disconnected⟩
    · rw [List.count_eq_zero_of_not_mem h.not_closed]
      exact Nat.zero_le 1
    · intro before after htrace
      apply absurd _ h.not_disconnected
      rw [htrace]
      simp
  · refine ⟨.inr h.callbacks, ?_, h.no_write, fun _ => h.isClosed.events⟩
    rcases h.todo with ⟨-, hcount⟩ | ⟨-, -, -, hcount⟩ <;> omega

omit [DecidableEq T] in
/-- `connectEstablished` starts a run. -/
theorem closeInv_start {sockfd : Int} {user : UserCallbacks} {io : ConnIo Unit}
    (hest : (ConnIo.fresh sockfd user).connectEstablished = some io) :
    CloseInv (CloseRun.start io : CloseRun T) := by
  obtain ⟨io', hest', hstate, hqueue, htrace, horder⟩ :=
    ConnIo.connectEstablished_fresh sockfd user
  rw [hest, Option.some.injEq] at hest'
  subst hest'
  refine .inl ⟨horder.isOpen, .inl hstate, .inl (by simp [CloseRun.start, IsTail]), ?_, ?_, ?_,
    ?_, rfl⟩
  · simp [CloseRun.start, htrace, connectionCallbacks]
  · simp [CloseRun.start, htrace]
  · simp [CloseRun.start, htrace]
  · simp [CloseRun.start, hqueue]

/-- **A sound run closes the connection cleanly.** From `connectEstablished` on, in every
    state reached by a run in which no queued `sendInLoop` runs after the close and no read
    callback reads the end of the stream after the close. -/
theorem closeRun_along_clean {sameLoop : Bool} {sockfd : Int} {user : UserCallbacks}
    {io : ConnIo Unit} (hest : (ConnIo.fresh sockfd user).connectEstablished = some io)
    {as : List (CloseAct T)} {s : CloseRun T}
    (h : (closeMachine sameLoop).ReachesAlong (fun s a => s.sound a = true) (.start io) as s) :
    s.Clean := by
  have hinv := Machine.invariant_reaches_along (I := CloseInv) (closeInv_start hest) ?_ h
  · exact hinv.clean
  · intro t a u ht he hsound hstep
    rcases ht with ht | ht
    · exact ht.step he hstep
    · exact .inr (ht.step he hsound hstep)

/-- A message in both directions, then the peer closes, and the chain runs to its end. -/
def peerCloseRun : List (CloseAct Nat) :=
  [.externalSend 0 100 1, .externalNext 0, .functor [65] (.accepted 0),
    .event (EPOLLIN ||| EPOLLOUT), .handler (.bytes [66]) (.accepted 0),
    .handler .error (.accepted 1), .event EPOLLIN, .handler (.bytes []) (.accepted 0),
    .handler .error (.accepted 0), .handler .error (.accepted 0), .removeConnectionInLoop,
    .functor [] (.accepted 0)]

theorem peerCloseRun_clean :
    ∃ io s, (ConnIo.fresh 5 ⟨false, false, 0⟩).connectEstablished = some io ∧
      (closeMachine false).ReachesAlong (fun s a => s.sound a = true)
        (CloseRun.start io) peerCloseRun s ∧
      connectionCallbacks s.io.trace = [true, false] ∧ s.Clean := by
  obtain ⟨io, hest, -⟩ := ConnIo.connectEstablished_fresh 5 ⟨false, false, 0⟩
  have hrun : ((ConnIo.fresh 5 ⟨false, false, 0⟩).connectEstablished.bind fun io =>
      (closeMachine false).runAlong CloseRun.sound (CloseRun.start io) peerCloseRun).map
      (fun s => connectionCallbacks s.io.trace) = some [true, false] := by decide +kernel
  rw [hest, Option.bind_some] at hrun
  obtain ⟨s, hs, hcallbacks⟩ := Option.map_eq_some_iff.mp hrun
  have hreach := Machine.reachesAlong_of_runAlong hs
  exact ⟨io, s, hest, hreach, hcallbacks, closeRun_along_clean hest hreach⟩

/-- Another thread's `send` is queued, the peer closes, and the functor runs. -/
def queuedSendRun : List (CloseAct Nat) :=
  [.externalSend 0 100 1, .externalNext 0, .event EPOLLIN, .handler (.bytes []) (.accepted 0),
    .handler .error (.accepted 0), .handler .error (.accepted 0), .functor [65] (.accepted 1)]

/-- A dispatch for `EPOLLHUP | EPOLLPRI` whose read callback reads the end of the stream. -/
def hangupPriorityRun : List (CloseAct Nat) :=
  [.event (EPOLLHUP ||| EPOLLPRI), .handler .error (.accepted 0), .handler .error (.accepted 0),
    .handler (.bytes []) (.accepted 0), .handler .error (.accepted 0)]

/-- **Two runs that do not close cleanly**: the queued `sendInLoop` writes to the socket of the
    closed connection, and the second close calls the user a second time. -/
theorem closeRun_not_clean :
    ∃ io, (ConnIo.fresh 5 ⟨false, false, 0⟩).connectEstablished = some io ∧
      (∃ s, (closeMachine false).Reaches (CloseRun.start io) queuedSendRun s ∧ ¬s.Clean) ∧
      (∃ s, (closeMachine false).Reaches (CloseRun.start io) hangupPriorityRun s ∧ ¬s.Clean) := by
  obtain ⟨io, hest, -⟩ := ConnIo.connectEstablished_fresh 5 ⟨false, false, 0⟩
  have hsend : ((ConnIo.fresh 5 ⟨false, false, 0⟩).connectEstablished.bind fun io =>
      (closeMachine false).run (CloseRun.start io) queuedSendRun).map (fun s => s.io.trace) =
      some ([.connectionCallback true] ++ .disconnected ::
        [.connectionCallback false, .closeCallback, .write [65]]) := by decide +kernel
  have hhangup : ((ConnIo.fresh 5 ⟨false, false, 0⟩).connectEstablished.bind fun io =>
      (closeMachine false).run (CloseRun.start io) hangupPriorityRun).map
      (fun s => connectionCallbacks s.io.trace) = some [true, false, false] := by decide +kernel
  rw [hest, Option.bind_some] at hsend hhangup
  obtain ⟨s, hs, htrace⟩ := Option.map_eq_some_iff.mp hsend
  obtain ⟨u, hu, hcallbacks⟩ := Option.map_eq_some_iff.mp hhangup
  refine ⟨io, hest, ⟨s, Machine.reaches_of_run hs, ?_⟩, u, Machine.reaches_of_run hu, ?_⟩
  · intro hclean
    exact absurd (hclean.no_write _ _ htrace (.write [65]) (by simp)) (by decide)
  · intro hclean
    have hcases := hclean.callbacks
    rw [hcallbacks] at hcases
    exact absurd hcases (by decide)

end RainWebServer.Net
