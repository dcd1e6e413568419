import RainWebServer.Net.ConnectionClose
import RainWebServer.Net.TcpConnectionCalls

/-!
# EchoServer

Puts a connection under the user of `src/main.cc`: `onMessage` takes everything from the input
buffer and passes it to `send`. It runs inside of the read callback, so a run consists of events
of the channel, of the callbacks of their dispatch and of the functors that a close queues.

The socket may take as little of a `::write` as it likes and may refuse it for now. Once it has
answered with `EPIPE` or `ECONNRESET` it takes nothing any more. A close may come at any time,
also twice in a dispatch.

`SIGPIPE` is ignored in the process, so that a `::write` to a broken socket returns `EPIPE`. The
server itself does not see to that; with the default action the signal ends the process.

## Main results

- `echo_reaches_prefix` : what the peer gets back is what it sent, in order, up to a point
- `echo_drains` : nothing stays behind while the socket takes bytes, however few at a time
-/

namespace RainWebServer.Net

open RainWebServer.Lib

/-! ## §1 The server's callback -/

/-- `retrieveAllAsString`. -/
def Buffer.retrieveAllAsString (b : Buffer) : List Byte × Buffer :=
  (b.readable, b.retrieve b.readableBytes)

/-- `EchoServer::onMessage`. -/
def ConnIo.onMessage {Ch : Type} (c : ConnIo Ch) (w : WriteResult) : Option (ConnIo Ch) :=
  let (msg, buffer) := c.conn.inputBuffer_.retrieveAllAsString
  (c.setInputBuffer buffer).send msg w

/-- The bytes that a `readv` delivers. -/
def ReadResult.data : ReadResult → List Byte
  | .bytes data => data
  | .error => []

/-! ## §2 Runs -/

/-- A connection of the server; the callbacks that the current dispatch has still to make; the
    `removeConnectionInLoop` functors in the server's loop; the bytes that `readv` has delivered;
    whether a `::write` has met a fault error. -/
structure EchoRun where
  io : ConnIo Unit
  todo : List HandlerOp
  removals : Nat
  received : List Byte
  faulted : Bool

/-- What can happen to the connection. -/
inductive EchoAct where
  /-- The poller reports the channel. -/
  | event (revents : EventMask)
  /-- The next callback of the dispatch runs, with the answers it may need. -/
  | handler (r : ReadResult) (w : WriteResult)
  /-- The first functor of the loop's queue runs. -/
  | functor
  /-- The server's loop runs `removeConnectionInLoop`. -/
  | removeConnectionInLoop

namespace EchoRun

/-- The connection right after `connectEstablished`. -/
def start (io : ConnIo Unit) : EchoRun := ⟨io, [], 0, [], false⟩

/-- Which actions can be taken. A socket that is broken stays so. -/
def enabled (s : EchoRun) : EchoAct → Bool
  | .event _ => s.todo.isEmpty && (s.io.poller.interest s.io.conn.channel_.fd_).isSome
  | .handler _ w => !s.todo.isEmpty && !(s.faulted && w.accepts)
  | .functor => s.todo.isEmpty && !s.io.queue.isEmpty
  | .removeConnectionInLoop => s.removals > 0

/-- One callback of the channel; a read that delivers bytes calls `onMessage`. -/
def runHandler (io : ConnIo Unit) (r : ReadResult) (w : WriteResult) (op : HandlerOp) :
    Option (ConnIo Unit × List HandlerOp) := do
  let (io, ops) ← io.runHandler r w op
  if op = .handleRead ∧ r.data ≠ [] then
    let io ← io.onMessage w
    some (io, ops)
  else some (io, ops)

/-- The next callback of the dispatch. `removeConnection` queues `connectDestroyed` at once when
    the server's loop is the connection's. -/
def handler (sameLoop : Bool) (s : EchoRun) (r : ReadResult) (w : WriteResult) :
    Option EchoRun :=
  match s.todo with
  | [] => some s
  | op :: todo => do
    let (io, ops) ← runHandler s.io r w op
    some {
      io := if op = .closeCallback ∧ sameLoop then io.queueInLoop .connectDestroyed else io
      todo := ops ++ todo
      removals := if op = .closeCallback ∧ !sameLoop then s.removals + 1 else s.removals
      received := if op = .handleRead then s.received ++ r.data else s.received
      faulted := s.faulted || w.isFault }

/-- The first functor of the queue runs; the callbacks of the user make no calls. -/
def functor (s : EchoRun) : Option EchoRun :=
  match s.io.queue with
  | [] => some s
  | (_, f) :: queue => do
    let io ← match f with
      | .connectDestroyed => ConnIo.connectDestroyed { s.io with queue := queue }
      | _ => some { s.io with queue := queue }
    some { s with io := io }

/-- The effect of an action. -/
def step (sameLoop : Bool) (s : EchoRun) : EchoAct → Option EchoRun
  | .event revents =>
    some { s with io := s.io.setRevents revents, todo := handleEventWithGuard revents }
  | .handler r w => s.handler sameLoop r w
  | .functor => s.functor
  | .removeConnectionInLoop =>
    some { s with removals := s.removals - 1, io := s.io.queueInLoop .connectDestroyed }

end EchoRun

/-- Runs of one connection; `sameLoop` says whether the server's loop is the connection's. -/
def echoMachine (sameLoop : Bool) : Machine EchoRun EchoAct :=
  ⟨EchoRun.enabled, EchoRun.step sameLoop⟩

namespace ConnIo

/-! ## §3 The invariant -/

/-- The connection serves: what was received has been accepted or waits, unless the socket is
    broken. -/
structure Serving (io : ConnIo Unit) (received : List Byte) (faulted : Bool) : Prop where
  isOpen : io.Open
  state : io.conn.state_ = .kConnected
  drained : io.conn.inputBuffer_.readable = []
  bytes : faulted = false →
    acceptedBytes io.trace ++ io.conn.outputBuffer_.readable = received

/-- The connection has been closed. The channel may be registered again by a second close, but it
    is not interested in anything. -/
structure Shut (io : ConnIo Unit) : Prop where
  agrees : io.Agrees
  state : io.conn.state_ = .kDisconnected
  events : io.conn.channel_.events_ = kNoneEvent
  inputWF : io.conn.inputBuffer_.WF

/-- The invariant. -/
structure Echoes (io : ConnIo Unit) (received : List Byte) (faulted : Bool) : Prop where
  phase : Serving io received faulted ∨ Shut io
  accepted : acceptedBytes io.trace <+: received
  queue : ∀ f ∈ io.queue, f.2.isUser = true ∨ f.2 = .connectDestroyed

/-! ## §4 Steps -/

variable {io : ConnIo Unit} {received : List Byte} {faulted : Bool}

theorem queue_user {io' : ConnIo Unit} {fs : List ConnFunctor} {es : List ConnEvent}
    (hext : io.Extends io' fs es) (huser : ∀ f ∈ fs, f.isUser = true)
    (h : ∀ f ∈ io.queue, f.2.isUser = true ∨ f.2 = .connectDestroyed) :
    ∀ f ∈ io'.queue, f.2.isUser = true ∨ f.2 = .connectDestroyed := by
  intro f hf
  rw [hext.queue] at hf
  rcases List.mem_append.mp hf with hf | hf
  · exact h f hf
  · obtain ⟨f', hf', rfl⟩ := List.mem_map.mp hf
    exact .inl (huser f' hf')

/-- What the invariant does not read. -/
theorem Echoes.frame (h : Echoes io received faulted) {io' : ConnIo Unit}
    (hconn : io'.conn = io.conn) (hpoller : io'.poller = io.poller)
    (htrace : acceptedBytes io'.trace = acceptedBytes io.trace)
    (hqueue : ∀ f ∈ io'.queue, f.2.isUser = true ∨ f.2 = .connectDestroyed) :
    Echoes io' received faulted := by
  have hagrees : io.Agrees → io'.Agrees := by
    intro hagrees
    show io'.poller.Agrees io'.ptr io'.conn.channel_
    rw [hconn, hpoller]
    exact hagrees
  refine ⟨h.phase.imp ?_ ?_, htrace ▸ h.accepted, hqueue⟩
  · rintro ⟨hopen, hstate, hdrained, hbytes⟩
    refine ⟨⟨hagrees hopen.agrees, ?_, ?_, ?_, ?_⟩, ?_, ?_, ?_⟩
    · exact hconn ▸ hopen.added
    · exact hconn ▸ hopen.events
    · exact hconn ▸ hopen.outputWF
    · exact hconn ▸ hopen.inputWF
    · exact hconn ▸ hstate
    · exact hconn ▸ hdrained
    · rw [hconn, htrace]
      exact hbytes
  · rintro ⟨hagrees', hstate, hevents, hin⟩
    exact ⟨hagrees hagrees', hconn ▸ hstate, hconn ▸ hevents, hconn ▸ hin⟩

/-- `disconnect` of a connection in any phase. -/
theorem Echoes.disconnect (h : Echoes io received faulted) :
    ∃ io', io.disconnect = some io' ∧ io'.Shut ∧ Echoes io' received faulted := by
  obtain ⟨hagrees, hin⟩ : io.Agrees ∧ io.conn.inputBuffer_.WF := by
    rcases h.phase with hserving | hshut
    · exact ⟨hserving.isOpen.agrees, hserving.isOpen.inputWF⟩
    · exact ⟨hshut.agrees, hshut.inputWF⟩
  have hagrees₀ : ((io.setState .kDisconnected).record .disconnected).Agrees := hagrees
  obtain ⟨c, hset, hagrees', hext, hconn⟩ := setEvents_spec hagrees₀ kNoneEvent
  have hext' := (((Extends.setState io .kDisconnected).trans (Extends.record _ .disconnected)).trans
    hext).trans (Extends.record _ (.connectionCallback c.connected))
  have hshut : (c.record (.connectionCallback c.connected)).Shut := by
    refine ⟨hagrees', ?_, ?_, ?_⟩
    · rw [conn_record, hconn]
      rfl
    · rw [conn_record, hconn]
      rfl
    · rw [conn_record, hconn]
      exact hin
  refine ⟨_, ?_, hshut, .inr hshut, ?_, ?_⟩
  · simp only [ConnIo.disconnect, disableAll, hset, Option.bind_eq_bind, Option.bind_some]
  · rw [hext'.trace, acceptedBytes_append]
    exact (List.append_nil _).symm ▸ h.accepted
  · rw [hext'.queue]
    simpa using h.queue

/-- The channel of a closed connection leaves the poller. -/
theorem Shut.removeChannel (hshut : io.Shut) (h : Echoes io received faulted) :
    ∃ io', io.removeChannel = some io' ∧ Echoes io' received faulted := by
  obtain ⟨io', hremove, hagrees, hext, hconn⟩ := removeChannel_spec hshut.agrees
  refine ⟨io', hremove, .inr ⟨hagrees, ?_, ?_, ?_⟩, ?_, ?_⟩
  · rw [hconn]
    exact hshut.state
  · rw [hconn]
    exact hshut.events
  · rw [hconn]
    exact hshut.inputWF
  · rw [hext.trace, List.append_nil]
    exact h.accepted
  · rw [hext.queue]
    simpa using h.queue

/-- `connectDestroyed` in any phase. -/
theorem Echoes.connectDestroyed (h : Echoes io received faulted) :
    ∃ io', io.connectDestroyed = some io' ∧ Echoes io' received faulted := by
  rcases h.phase with hserving | hshut
  · -- a connection that still serves is closed first
    obtain ⟨c, hclose, hshut, hechoes⟩ := h.disconnect
    obtain ⟨io', hremove, hechoes'⟩ := hshut.removeChannel hechoes
    refine ⟨io', ?_, hechoes'⟩
    simp only [ConnIo.connectDestroyed, if_pos hserving.state, hclose, Option.bind_eq_bind,
      Option.bind_some, hremove]
  · have hnot : io.conn.state_ ≠ .kConnected := by simp [hshut.state]
    obtain ⟨io', hremove, hechoes'⟩ := hshut.removeChannel h
    refine ⟨io', ?_, hechoes'⟩
    simp only [ConnIo.connectDestroyed, if_neg hnot, Option.bind_eq_bind, Option.bind_some,
      hremove]

/-- `handleWrite` in any phase. -/
theorem Echoes.handleWrite (h : Echoes io received faulted) {w : WriteResult}
    (hw : faulted = true → w.accepts = false) :
    ∃ io', io.handleWrite w = some io' ∧ Echoes io' received faulted ∧
      (Serving io received faulted → Serving io' received faulted) := by
  rcases h.phase with hserving | hshut
  · obtain ⟨io', fs, es, hcall, hdrain⟩ := handleWrite_spec hserving.isOpen w
    have hserving' : Serving io' received faulted := by
      refine ⟨hdrain.isOpen, hdrain.state.trans hserving.state, ?_, fun hok => ?_⟩
      · rw [(handleWrite_queue hserving.isOpen hcall).keeps.input]
        exact hserving.drained
      · rw [hdrain.ext.trace, acceptedBytes_append, List.append_assoc, hdrain.bytes]
        exact hserving.bytes hok
    refine ⟨io', hcall, ⟨.inl hserving', ?_, ?_⟩, fun _ => hserving'⟩
    · cases hfault : faulted with
      | true =>
        rw [handleWrite_refused (hw hfault) hcall]
        exact h.accepted
      | false =>
        rw [← hserving'.bytes hfault]
        exact List.prefix_append _ _
    · exact queue_user hdrain.ext hdrain.user h.queue
  · have hidle : io.handleWrite w = some io := by
      apply if_neg
      rw [Channel.isWriting, hshut.events]
      decide
    exact ⟨io, hidle, h, id⟩

/-- `onMessage`, when `readv` has put `data` into the input buffer. -/
theorem Echoes.onMessage {data : List Byte} {w : WriteResult} (h : Echoes io received faulted)
    (hw : faulted = true → w.accepts = false) (hne : data ≠ []) :
    ∃ io' io'', io.handleRead (.bytes data) = some (io', []) ∧ io'.onMessage w = some io'' ∧
      Echoes io'' (received ++ data) (faulted || w.isFault) := by
  have hpos : data.length > 0 := List.length_pos_of_ne_nil hne
  have hin : io.conn.inputBuffer_.WF := by
    rcases h.phase with hserving | hshut
    · exact hserving.isOpen.inputWF
    · exact hshut.inputWF
  obtain ⟨buffer, hread, hwf, hreadable⟩ := Buffer.readFd_spec hin data
  have hwf' := hwf.retrieve buffer.readableBytes
  have hempty : (buffer.retrieve buffer.readableBytes).readable = [] := by
    rw [Buffer.readable_retrieve hwf, ← hwf.length_readable, List.drop_length]
  -- the connection behind `retrieveAllAsString`
  obtain ⟨c, hc⟩ : ∃ c, c = ((io.setInputBuffer buffer).record .messageCallback).setInputBuffer
      (buffer.retrieve buffer.readableBytes) := ⟨_, rfl⟩
  have hextc : io.Extends c [] [.messageCallback] := by
    rw [hc]
    exact ((Extends.setInputBuffer io buffer).trans (Extends.record _ _)).trans
      (Extends.setInputBuffer _ _)
  have htrace : acceptedBytes c.trace = acceptedBytes io.trace := by
    rw [hextc.trace, acceptedBytes_append]
    exact List.append_nil _
  refine ⟨(io.setInputBuffer buffer).record .messageCallback, ?_⟩
  have hcall : io.handleRead (.bytes data) =
      some ((io.setInputBuffer buffer).record .messageCallback, []) := by
    simp only [handleRead, if_pos hpos, hread, Option.bind_eq_bind, Option.bind_some]
  rcases h.phase with hserving | hshut
  · -- the bytes are sent
    have hopenc : c.Open := by
      rw [hc]
      exact ⟨hserving.isOpen.agrees, hserving.isOpen.added, hserving.isOpen.events,
        hserving.isOpen.outputWF, hwf'⟩
    have hstate : c.conn.state_ = .kConnected := by
      rw [hc]
      exact hserving.state
    obtain ⟨io'', fs, es, hsend, hext, huser, -, hopen, hstate', hbytes⟩ :=
      sendInLoop_spec hopenc data w
    have hmsg : buffer.readable = data := by
      rw [hreadable, hserving.drained, List.nil_append]
    have hserving' : Serving io'' (received ++ data) (faulted || w.isFault) := by
      refine ⟨hopen, hstate'.trans hstate, ?_, fun hok => ?_⟩
      · rw [(sendInLoop_queue hopenc hsend).1.input, hc]
        exact hempty
      · obtain ⟨hok, hokw⟩ := Bool.or_eq_false_iff.mp hok
        have hout : c.conn.outputBuffer_ = io.conn.outputBuffer_ := by
          rw [hc]
          rfl
        rw [hext.trace, acceptedBytes_append, List.append_assoc, hbytes hokw, htrace, hout,
          ← List.append_assoc, hserving.bytes hok]
    refine ⟨io'', hcall, ?_, .inl hserving', ?_, ?_⟩
    · show (((io.setInputBuffer buffer).record .messageCallback).setInputBuffer
        (buffer.retrieve buffer.readableBytes)).send buffer.readable w = some io''
      rw [hmsg, ← hc, send, if_pos hstate, hsend]
    · cases haccepts : w.accepts with
      | false =>
        rw [sendInLoop_refused hopenc haccepts hsend, htrace]
        exact h.accepted.trans (List.prefix_append _ _)
      | true =>
        -- a socket that takes bytes is not broken
        have hokf : faulted = false := by
          cases hf : faulted with
          | false => rfl
          | true =>
            rw [hw hf] at haccepts
            cases haccepts
        have hokw : w.isFault = false := by
          cases w with
          | accepted n => rfl
          | error errno => cases haccepts
        rw [← hserving'.bytes (by rw [hokf, hokw]; rfl)]
        exact List.prefix_append _ _
    · refine queue_user hext huser ?_
      rw [hextc.queue]
      simpa using h.queue
  · -- `send` ignores what a closed connection has read
    have hnot : c.conn.state_ ≠ .kConnected := by
      rw [hc]
      exact fun heq => by simp [setInputBuffer, record, hshut.state] at heq
    refine ⟨c, hcall, ?_, .inr ?_, ?_, ?_⟩
    · show (((io.setInputBuffer buffer).record .messageCallback).setInputBuffer
        (buffer.retrieve buffer.readableBytes)).send buffer.readable w = some c
      rw [← hc, send, if_neg hnot]
    · rw [hc]
      exact ⟨hshut.agrees, hshut.state, hshut.events, hwf'⟩
    · rw [htrace]
      exact h.accepted.trans (List.prefix_append _ _)
    · rw [hextc.queue]
      simpa using h.queue

end ConnIo

namespace EchoRun

/-- The invariant of a run. -/
def EchoInv (s : EchoRun) : Prop := s.io.Echoes s.received s.faulted

variable {s : EchoRun} {sameLoop : Bool}

theorem echoes_faulted {io : ConnIo Unit} {received : List Byte} {faulted : Bool}
    (h : io.Echoes received faulted) (fault : Bool) : io.Echoes received (faulted || fault) := by
  refine ⟨h.phase.imp_left fun hserving => ?_, h.accepted, h.queue⟩
  exact ⟨hserving.isOpen, hserving.state, hserving.drained,
    fun hok => hserving.bytes (Bool.or_eq_false_iff.mp hok).1⟩

/-- One callback of the channel. -/
theorem EchoInv.runHandler (h : s.EchoInv) {r : ReadResult} {w : WriteResult}
    (hw : s.faulted = true → w.accepts = false) (op : HandlerOp) :
    ∃ io ops, EchoRun.runHandler s.io r w op = some (io, ops) ∧
      io.Echoes (if op = .handleRead then s.received ++ r.data else s.received)
        (s.faulted || w.isFault) := by
  unfold EchoRun.runHandler
  cases op with
  | handleClose =>
    obtain ⟨io, hclose, -, hechoes⟩ := h.disconnect
    exact ⟨io, [], by simp [ConnIo.runHandler, ConnIo.handleClose, hclose],
      echoes_faulted hechoes _⟩
  | closeCallback =>
    have hechoes : (s.io.record .closeCallback).Echoes s.received s.faulted := by
      refine ConnIo.Echoes.frame h rfl rfl ?_ h.queue
      rw [ConnIo.record, acceptedBytes_append]
      exact List.append_nil _
    exact ⟨_, [], by simp [ConnIo.runHandler], echoes_faulted hechoes _⟩
  | handleError => exact ⟨s.io, [], by simp [ConnIo.runHandler], echoes_faulted h _⟩
  | handleWrite =>
    obtain ⟨io, hwrite, hechoes, -⟩ := ConnIo.Echoes.handleWrite h hw
    exact ⟨io, [], by simp [ConnIo.runHandler, hwrite], echoes_faulted hechoes _⟩
  | handleRead =>
    rw [if_pos rfl]
    cases r with
    | error =>
      refine ⟨s.io, [.handleError], by simp [ConnIo.runHandler, ConnIo.handleRead, ReadResult.data],
        ?_⟩
      rw [ReadResult.data, List.append_nil]
      exact echoes_faulted h _
    | bytes data =>
      cases data with
      | nil =>
        refine ⟨s.io, [.handleClose, .closeCallback],
          by simp [ConnIo.runHandler, ConnIo.handleRead, ReadResult.data], ?_⟩
        rw [ReadResult.data, List.append_nil]
        exact echoes_faulted h _
      | cons byte data =>
        obtain ⟨io, io', hread, hmessage, hechoes⟩ :=
          ConnIo.Echoes.onMessage h hw (List.cons_ne_nil byte data)
        refine ⟨io', [], ?_, hechoes⟩
        simp [ConnIo.runHandler, hread, hmessage, ReadResult.data]

/-- Queueing `connectDestroyed`. -/
theorem echoes_queueInLoop {io : ConnIo Unit} {received : List Byte} {faulted : Bool}
    (h : io.Echoes received faulted) :
    (io.queueInLoop .connectDestroyed).Echoes received faulted := by
  refine h.frame rfl rfl rfl fun f hf => ?_
  rcases List.mem_append.mp hf with hf | hf
  · exact h.queue f hf
  · rw [List.mem_singleton.mp hf]
    exact .inr rfl

/-- **Every action keeps the invariant**, and none faults. -/
theorem EchoInv.step (sameLoop : Bool) (h : s.EchoInv) {a : EchoAct} (he : s.enabled a = true) :
    ∃ t, s.step sameLoop a = some t ∧ t.EchoInv := by
  cases a with
  | event revents =>
    refine ⟨_, rfl, h.phase.imp ?_ ?_, h.accepted, h.queue⟩
    · exact fun hs => ⟨hs.isOpen.setRevents revents, hs.state, hs.drained, hs.bytes⟩
    · exact fun hs => ⟨⟨hs.agrees.interest_eq, hs.agrees.channels_eq⟩, hs.state, hs.events,
        hs.inputWF⟩
  | handler r w =>
    simp only [enabled, Bool.and_eq_true, Bool.not_eq_true', Bool.and_eq_false_iff] at he
    obtain ⟨-, hw⟩ := he
    have hw' : s.faulted = true → w.accepts = false := by
      intro hf
      rw [hf] at hw
      simpa using hw
    show ∃ t, s.handler sameLoop r w = some t ∧ t.EchoInv
    unfold EchoRun.handler
    cases htodo : s.todo with
    | nil => exact ⟨s, rfl, h⟩
    | cons op todo =>
      obtain ⟨io, ops, hcall, hechoes⟩ := h.runHandler (r := r) hw' op
      refine ⟨_, by simp only [hcall, Option.bind_eq_bind, Option.bind_some]; rfl, ?_⟩
      show ConnIo.Echoes (if op = .closeCallback ∧ sameLoop = true then
        io.queueInLoop .connectDestroyed else io) _ _
      split
      · exact echoes_queueInLoop hechoes
      · exact hechoes
  | functor =>
    show ∃ t, s.functor = some t ∧ t.EchoInv
    unfold EchoRun.functor
    cases hqueue : s.io.queue with
    | nil => exact ⟨s, rfl, h⟩
    | cons head queue =>
      obtain ⟨ptr, f⟩ := head
      have hmem := h.queue
      rw [hqueue] at hmem
      have h' : ConnIo.Echoes { s.io with queue := queue } s.received s.faulted :=
        h.frame rfl rfl rfl fun f' hf' => hmem f' (List.mem_cons_of_mem _ hf')
      obtain ⟨io, hdestroy, hechoes⟩ := h'.connectDestroyed
      cases f with
      | connectDestroyed =>
        exact ⟨{ s with io := io }, by simp [hdestroy], hechoes⟩
      | _ => exact ⟨{ s with io := { s.io with queue := queue } }, rfl, h'⟩
  | removeConnectionInLoop => exact ⟨_, rfl, echoes_queueInLoop h⟩

/-- `connectEstablished` starts a run. -/
theorem echoInv_start {sockfd : Int} {user : UserCallbacks} {io : ConnIo Unit}
    (hest : (ConnIo.fresh sockfd user).connectEstablished = some io) : (start io).EchoInv := by
  obtain ⟨io', hest', hstate, hqueue, htrace, horder⟩ :=
    ConnIo.connectEstablished_fresh sockfd user
  have hin := (ConnIo.connectEstablished_keeps hest).input
  rw [hest, Option.some.injEq] at hest'
  subst hest'
  refine ⟨.inl ⟨horder.isOpen, hstate, ?_, fun _ => horder.bytes⟩, ?_, ?_⟩
  · rw [start, hin]
    exact Buffer.readable_new _
  · exact ⟨_, horder.bytes⟩
  · rw [start, hqueue]
    nofun

theorem echoInv_invariant {sockfd : Int} {user : UserCallbacks} {io : ConnIo Unit}
    (hest : (ConnIo.fresh sockfd user).connectEstablished = some io) :
    (echoMachine sameLoop).Invariant (start io) EchoInv :=
  ⟨echoInv_start hest, fun _ _ h he => h.step sameLoop he⟩

end EchoRun

/-! ## §5 Every run -/

variable {sameLoop : Bool} {sockfd : Int} {user : UserCallbacks} {io : ConnIo Unit}
  {s : EchoRun} {as : List EchoAct}

/-- **The peer gets back what it sent**, in a process that ignores `SIGPIPE`. In every state of
    every run of a connection, whatever its events, the answers of the socket and the closes are:
    the bytes that the socket has accepted are a prefix of the bytes received; while the connection
    is `kConnected` and the socket is not broken, the rest of them waits in the output buffer, the
    input buffer is empty, and the channel is interested in writing exactly when bytes wait; and no
    step faults. -/
theorem echo_reaches_prefix
    (hest : (ConnIo.fresh sockfd user).connectEstablished = some io)
    (h : (echoMachine sameLoop).Reaches (.start io) as s) :
    acceptedBytes s.io.trace <+: s.received ∧
    (s.io.conn.state_ = .kConnected → s.faulted = false →
      acceptedBytes s.io.trace ++ s.io.conn.outputBuffer_.readable = s.received ∧
      s.io.conn.inputBuffer_.readable = [] ∧
      (s.io.conn.channel_.isWriting = true ↔ s.io.conn.outputBuffer_.readable ≠ [])) ∧
    (echoMachine sameLoop).Safe s := by
  have hinv := Machine.invariant_reaches (EchoRun.echoInv_invariant hest) h
  refine ⟨hinv.accepted, fun hstate hok => ?_,
    Machine.invariant_safe (EchoRun.echoInv_invariant hest) h⟩
  rcases hinv.phase with hserving | hshut
  · exact ⟨hserving.bytes hok, hserving.drained, hserving.isOpen.isWriting_iff⟩
  · rw [hshut.state] at hstate
    cases hstate

/-- Two reads; the socket takes one byte. -/
def slowSocketRun : List EchoAct :=
  [.event EPOLLIN, .handler (.bytes [1, 2, 3]) (.accepted 1), .event EPOLLIN,
    .handler (.bytes [4]) (.accepted 0)]

/-- What is left to send after it. -/
theorem slowSocketRun_prefix :
    ∃ io s, (ConnIo.fresh 5 ⟨false, false, 0⟩).connectEstablished = some io ∧
      (echoMachine false).Reaches (.start io) slowSocketRun s ∧ s.received = [1, 2, 3, 4] ∧
      acceptedBytes s.io.trace = [1] ∧ s.io.conn.outputBuffer_.readable = [2, 3, 4] := by
  obtain ⟨io, hest, -⟩ := ConnIo.connectEstablished_fresh 5 ⟨false, false, 0⟩
  have hrun : ((ConnIo.fresh 5 ⟨false, false, 0⟩).connectEstablished.bind fun io =>
      (echoMachine false).run (.start io) slowSocketRun).map (fun s =>
      (s.received, acceptedBytes s.io.trace, s.io.conn.state_, s.faulted)) =
      some ([1, 2, 3, 4], [1], .kConnected, false) := by decide +kernel
  rw [hest, Option.bind_some] at hrun
  obtain ⟨s, hs, hresult⟩ := Option.map_eq_some_iff.mp hrun
  simp only [Prod.mk.injEq] at hresult
  obtain ⟨hreceived, haccepted, hstate, hok⟩ := hresult
  have hreach := Machine.reaches_of_run hs
  obtain ⟨-, hserves, -⟩ := echo_reaches_prefix hest hreach
  obtain ⟨hbytes, -⟩ := hserves hstate hok
  rw [haccepted, hreceived] at hbytes
  exact ⟨io, s, hest, hreach, hreceived, haccepted, List.append_cancel_left hbytes⟩

/-- `EPOLLOUT` comes, and the socket takes up to `n` bytes. -/
def writableFor (n : Nat) : List EchoAct := [.event EPOLLOUT, .handler .error (.accepted n)]

/-- The connection serves, the socket is not broken, and no dispatch is under way. -/
structure EchoRun.Ready (s : EchoRun) : Prop where
  inv : s.EchoInv
  serving : s.io.Serving s.received false
  faulted : s.faulted = false
  todo : s.todo = []

/-- One round takes `n` bytes from those that wait. -/
theorem EchoRun.Ready.round (sameLoop : Bool) (h : s.Ready) (n : Nat) :
    ∃ t, (echoMachine sameLoop).Reaches s (writableFor n) t ∧ t.Ready ∧
      t.received = s.received ∧ t.io.waiting = s.io.waiting - n := by
  -- the channel is registered, so the event can come
  have hregistered : s.enabled (.event EPOLLOUT) = true := by
    have hinterest := h.serving.isOpen.agrees.interest_eq
    rw [EPollPoller.entryOf, if_pos h.serving.isOpen.added] at hinterest
    simp [enabled, h.todo, hinterest]
  obtain ⟨u, hu⟩ : ∃ u : EchoRun,
      u = { s with io := s.io.setRevents EPOLLOUT, todo := [.handleWrite] } := ⟨_, rfl⟩
  have hevent : s.step sameLoop (.event EPOLLOUT) = some u := by
    rw [hu]
    rfl
  have huserving : u.io.Serving u.received false := by
    rw [hu]
    exact ⟨h.serving.isOpen.setRevents EPOLLOUT, h.serving.state, h.serving.drained,
      h.serving.bytes⟩
  obtain ⟨v, hv, huinv⟩ := h.inv.step sameLoop hregistered
  rw [hevent, Option.some.injEq] at hv
  rw [← hv] at huinv
  have hufaulted : u.faulted = false := by
    rw [hu]
    exact h.faulted
  have hutodo : u.todo = [.handleWrite] := by rw [hu]
  have hwaiting : u.io.waiting = s.io.waiting := by
    rw [hu]
    rfl
  -- the callback
  obtain ⟨io', hwrite, hechoes, hserving'⟩ := ConnIo.Echoes.handleWrite (w := .accepted n) huinv
    (fun hf => by rw [hufaulted] at hf; cases hf)
  rw [hufaulted] at hserving'
  have hout := (ConnIo.handleWrite_queue huserving.isOpen hwrite).waiting
  have henabled : u.enabled (.handler .error (.accepted n)) = true := by
    simp [enabled, hutodo, hufaulted]
  have hstep : u.step sameLoop (.handler .error (.accepted n)) =
      some { u with io := io', todo := [] } := by
    simp [step, handler, hutodo, runHandler, ConnIo.runHandler, hwrite, WriteResult.isFault]
  refine ⟨{ u with io := io', todo := [] }, .cons hregistered hevent (.cons henabled hstep .refl),
    ⟨hechoes, hserving' huserving, hufaulted, rfl⟩, ?_, ?_⟩
  · rw [hu]
  · rw [← hwaiting]
    exact hout

/-- Rounds until nothing waits. -/
theorem EchoRun.Ready.drains (sameLoop : Bool) {ns : List Nat} (h : s.Ready) (hns : ∀ n ∈ ns, 0 < n)
    (henough : s.io.waiting ≤ ns.length) :
    ∃ t, (echoMachine sameLoop).Reaches s (ns.flatMap writableFor) t ∧ t.Ready ∧
      t.received = s.received ∧ t.io.waiting = 0 := by
  induction ns generalizing s with
  | nil => exact ⟨s, .refl, h, rfl, Nat.le_zero.mp henough⟩
  | cons n ns ih =>
    have hn := hns n List.mem_cons_self
    obtain ⟨u, hround, hready, hreceived, hout⟩ := h.round sameLoop n
    have hless : u.io.waiting ≤ ns.length := by
      rw [List.length_cons] at henough
      omega
    obtain ⟨t, hrest, hready', hreceived', hempty⟩ :=
      ih hready (fun m hm => hns m (List.mem_cons_of_mem n hm)) hless
    exact ⟨t, hround.trans hrest, hready', hreceived'.trans hreceived, hempty⟩

/-- **Nothing stays behind.** From every state of every run in which the connection is
    `kConnected`, the socket is not broken and no dispatch is under way, one `EPOLLOUT` for each
    waiting byte is enough, if each time the socket takes at least one byte: then all bytes
    received have been accepted. -/
theorem echo_drains (hest : (ConnIo.fresh sockfd user).connectEstablished = some io)
    (h : (echoMachine sameLoop).Reaches (.start io) as s)
    (hstate : s.io.conn.state_ = .kConnected) (hok : s.faulted = false) (htodo : s.todo = [])
    {ns : List Nat} (hns : ∀ n ∈ ns, 0 < n)
    (henough : s.io.waiting ≤ ns.length) :
    ∃ t, (echoMachine sameLoop).Reaches s (ns.flatMap writableFor) t ∧
      t.received = s.received ∧ acceptedBytes t.io.trace = s.received := by
  have hinv := Machine.invariant_reaches (EchoRun.echoInv_invariant hest) h
  have hready : s.Ready := by
    rcases hinv.phase with hserving | hshut
    · rw [hok] at hserving
      exact ⟨hinv, hserving, hok, htodo⟩
    · rw [hshut.state] at hstate
      cases hstate
  obtain ⟨t, hrun, hready', hreceived, hempty⟩ := hready.drains sameLoop hns henough
  refine ⟨t, hrun, hreceived, ?_⟩
  have hbytes := hready'.serving.bytes rfl
  rw [hready'.serving.isOpen.outputWF.readable_eq_nil_iff.mpr hempty, List.append_nil] at hbytes
  exact hbytes.trans hreceived

theorem slowSocketRun_drains :
    ∃ io s t, (ConnIo.fresh 5 ⟨false, false, 0⟩).connectEstablished = some io ∧
      (echoMachine false).Reaches (.start io) slowSocketRun s ∧
      (echoMachine false).Reaches s ([1, 1, 7].flatMap writableFor) t ∧
      acceptedBytes t.io.trace = [1, 2, 3, 4] := by
  obtain ⟨io, hest, -⟩ := ConnIo.connectEstablished_fresh 5 ⟨false, false, 0⟩
  have hrun : ((ConnIo.fresh 5 ⟨false, false, 0⟩).connectEstablished.bind fun io =>
      (echoMachine false).run (.start io) slowSocketRun).map (fun s =>
      (s.received, s.todo, s.io.waiting, s.io.conn.state_, s.faulted)) =
        some ([1, 2, 3, 4], [], 3, .kConnected, false) := by decide +kernel
  rw [hest, Option.bind_some] at hrun
  obtain ⟨s, hs, hresult⟩ := Option.map_eq_some_iff.mp hrun
  simp only [Prod.mk.injEq] at hresult
  obtain ⟨hreceived, htodo, hlength, hstate, hok⟩ := hresult
  have hreach := Machine.reaches_of_run hs
  have hns : ∀ n ∈ [1, 1, 7], 0 < n := by decide
  obtain ⟨t, hrun', -, hall⟩ := echo_drains hest hreach hstate hok htodo hns (le_of_eq hlength)
  exact ⟨io, s, t, hest, hreach, hrun', hall.trans hreceived⟩

end RainWebServer.Net
