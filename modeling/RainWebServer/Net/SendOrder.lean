import RainWebServer.Lib.Machine
import RainWebServer.Lib.Trace
import RainWebServer.Net.TcpConnectionSteps

/-!
# The Order of the Bytes of a Connection

Runs of one connection on its loop's thread, made of `send`, `shutdown` and `EPOLLOUT` events,
with any answers of `::write` short of a fault error.

## Main result

`sendRun_reaches_in_order` : the bytes accepted followed by the bytes waiting are the messages
sent, in call order; the channel is interested in writing exactly when bytes wait; and the
socket is shut down at most once, after the last byte.
-/

namespace RainWebServer.Net

open RainWebServer.Lib

/-! ## §1 Runs of sends -/

/-- The callbacks that a user may set before the connection is established. -/
structure UserCallbacks where
  writeCompleteCallback_ : Bool
  highWaterMarkCallback_ : Bool
  highWaterMark_ : Nat

/-- A connection before `connectEstablished`, alone on its loop. -/
def ConnIo.fresh (sockfd : Int) (user : UserCallbacks) : ConnIo Unit where
  ptr := ()
  conn := { TcpConnection.new sockfd with
    writeCompleteCallback_ := user.writeCompleteCallback_
    highWaterMarkCallback_ := user.highWaterMarkCallback_
    highWaterMark_ := user.highWaterMark_ }
  poller := .new
  queue := []
  trace := []

/-- A connection and the messages passed to `send` while it was `kConnected`. -/
structure SendRun where
  io : ConnIo Unit
  sent : List (List Byte)

/-- What happens on the loop's thread. -/
inductive SendAct where
  | connectEstablished
  /-- `send(msg)`, with the answer to its `::write` if it makes one. -/
  | send (msg : List Byte) (w : WriteResult)
  | shutdown
  /-- `EPOLLOUT`, with the answer to the `::write` of `handleWrite`. -/
  | writable (w : WriteResult)

/-- The connection is established once and first; no `::write` meets a fault error. -/
def SendRun.enabled (s : SendRun) : SendAct → Bool
  | .connectEstablished => s.io.conn.state_ = .kConnecting
  | .send _ w | .writable w => s.io.conn.state_ ≠ .kConnecting && !w.isFault
  | .shutdown => s.io.conn.state_ ≠ .kConnecting

/-- The effect of an action. -/
def SendRun.step (s : SendRun) : SendAct → Option SendRun
  | .connectEstablished => s.io.connectEstablished.map fun io => { s with io := io }
  | .send msg w => (s.io.send msg w).map fun io =>
    ⟨io, if s.io.conn.state_ = .kConnected then s.sent ++ [msg] else s.sent⟩
  | .shutdown => some { s with io := s.io.shutdown }
  | .writable w => (s.io.handleWrite w).map fun io => { s with io := io }

/-- Runs of one connection. -/
def sendMachine : Machine SendRun SendAct := ⟨SendRun.enabled, SendRun.step⟩

/-! ## §2 The invariant -/

namespace ConnIo

variable {Ch : Type}

/-- What holds of the `shutdownWrite` calls so far, when `stream` is all that was sent. -/
structure ShutdownOk (io : ConnIo Ch) (stream : List Byte) : Prop where
  once : io.trace.count .shutdownWrite ≤ 1
  after : AtEach ConnEvent.shutdownWrite (fun before _ => acceptedBytes before = stream) io.trace
  /-- Once it is done the connection is disconnecting and nothing waits. -/
  done : .shutdownWrite ∈ io.trace →
    io.conn.state_ = .kDisconnecting ∧ io.conn.outputBuffer_.readable = []

/-- An established connection that has been given `stream`: a prefix was accepted, the rest
    waits, and the socket is not shut down before the end. -/
structure InOrder (io : ConnIo Ch) (stream : List Byte) : Prop where
  isOpen : io.Open
  state : io.conn.state_ = .kConnected ∨ io.conn.state_ = .kDisconnecting
  bytes : acceptedBytes io.trace ++ io.conn.outputBuffer_.readable = stream
  shut : ShutdownOk io stream

/-! ## §3 Steps -/

variable {io io' : ConnIo Ch} {stream : List Byte} {es : List ConnEvent}

theorem ShutdownOk.of_no_shutdown (h : .shutdownWrite ∉ io.trace) : ShutdownOk io stream :=
  ⟨by rw [List.count_eq_zero_of_not_mem h]; exact Nat.zero_le _, atEach_of_not_mem h,
    fun hmem => absurd hmem h⟩

/-- Steps that make no `shutdownWrite` and add no waiting bytes keep the account. -/
theorem ShutdownOk.append (h : ShutdownOk io stream) (htrace : io'.trace = io.trace ++ es)
    (hes : .shutdownWrite ∉ es) (hstate : io'.conn.state_ = io.conn.state_)
    (hempty : io.conn.outputBuffer_.readable = [] → io'.conn.outputBuffer_.readable = []) :
    ShutdownOk io' stream := by
  refine ⟨?_, ?_, ?_⟩
  · rw [htrace, List.count_append, List.count_eq_zero_of_not_mem hes]
    exact h.once
  · rw [htrace]
    exact h.after.append hes (fun _ _ hall => hall)
  · rw [htrace, hstate]
    intro hmem
    obtain ⟨hdisc, hnil⟩ := h.done ((List.mem_append.mp hmem).resolve_right hes)
    exact ⟨hdisc, hempty hnil⟩

/-- The first `shutdownWrite`, made when every byte has been accepted. -/
theorem ShutdownOk.first (es : List ConnEvent)
    (htrace : io'.trace = io.trace ++ (es ++ [.shutdownWrite])) (hnone : .shutdownWrite ∉ io.trace)
    (hes : .shutdownWrite ∉ es) (hall : acceptedBytes (io.trace ++ es) = stream)
    (hdone : io'.conn.state_ = .kDisconnecting ∧ io'.conn.outputBuffer_.readable = []) :
    ShutdownOk io' stream := by
  rw [← List.append_assoc] at htrace
  have hnot : .shutdownWrite ∉ io.trace ++ es := by
    intro hmem
    exact (List.mem_append.mp hmem).elim hnone hes
  refine ⟨?_, ?_, fun _ => hdone⟩
  · rw [htrace, List.count_append, List.count_eq_zero_of_not_mem hnot]
    simp
  · rw [htrace]
    exact (atEach_of_not_mem hnot).snoc hall (fun _ _ h => h)

/-- While bytes can still come, no `shutdownWrite` was made. -/
theorem InOrder.no_shutdown (h : InOrder io stream)
    (hmore : io.conn.state_ = .kConnected ∨ io.conn.outputBuffer_.readable ≠ []) :
    .shutdownWrite ∉ io.trace := by
  intro hmem
  obtain ⟨hstate, hempty⟩ := h.shut.done hmem
  rcases hmore with hconnected | hwaiting
  · rw [hstate] at hconnected
    cases hconnected
  · exact hwaiting hempty

/-- While the connection is `kConnected` the stream can grow. -/
theorem InOrder.grow {data : List Byte} (h : InOrder io stream)
    (hconn : io.conn.state_ = .kConnected) (hopen : io'.Open)
    (hstate : io'.conn.state_ = io.conn.state_) (htrace : io'.trace = io.trace ++ es)
    (hes : .shutdownWrite ∉ es)
    (hbytes : acceptedBytes es ++ io'.conn.outputBuffer_.readable =
      io.conn.outputBuffer_.readable ++ data) : InOrder io' (stream ++ data) := by
  refine ⟨hopen, .inl (hstate.trans hconn), ?_, ShutdownOk.of_no_shutdown ?_⟩
  · rw [htrace, acceptedBytes_append, List.append_assoc, hbytes, ← List.append_assoc, h.bytes]
  · rw [htrace]
    intro hmem
    exact (List.mem_append.mp hmem).elim (h.no_shutdown (.inl hconn)) hes

/-- `send` on a `kConnected` connection adds its message to the stream. -/
theorem InOrder.send (h : InOrder io stream) (hconn : io.conn.state_ = .kConnected)
    (msg : List Byte) {w : WriteResult} (hw : w.isFault = false) :
    ∃ io', ∃ fs : List ConnFunctor, io.send msg w = some io' ∧ (∀ f ∈ fs, f.isUser = true) ∧
      io'.queue = io.queue ++ fs.map (io.ptr, ·) ∧ io'.conn.state_ = io.conn.state_ ∧
      InOrder io' (stream ++ msg) := by
  obtain ⟨io', fs, es, hsend, hext, huser, hes, hopen, hstate, hbytes⟩ :=
    sendInLoop_spec h.isOpen msg w
  refine ⟨io', fs, (if_pos hconn).trans hsend, huser, hext.queue, hstate, ?_⟩
  apply h.grow hconn hopen hstate hext.trace _ (hbytes hw)
  rcases hes with rfl | ⟨accepted, rfl⟩ <;> simp

/-- `shutdown` keeps the stream. -/
theorem InOrder.shutdown (h : InOrder io stream) : InOrder io.shutdown stream := by
  unfold ConnIo.shutdown
  by_cases hconn : io.conn.state_ = .kConnected
  · have hopen := h.isOpen.setState .kDisconnecting
    have hnone := h.no_shutdown (.inl hconn)
    rw [if_pos hconn]
    by_cases hempty : io.conn.outputBuffer_.readable = []
    · -- nothing waits: the socket is shut down at once
      rw [shutdownInLoop_of_empty hopen hempty]
      have hall : acceptedBytes (io.trace ++ []) = stream := by
        rw [← h.bytes, hempty, List.append_nil, List.append_nil]
      refine ⟨hopen.record _, .inr rfl, ?_, ?_⟩
      · show acceptedBytes (io.trace ++ [.shutdownWrite]) ++ io.conn.outputBuffer_.readable = _
        rw [acceptedBytes_append, ← h.bytes]
        simp [acceptedBytes]
      · exact ShutdownOk.first [] rfl hnone (by simp) hall ⟨rfl, hempty⟩
    · -- bytes wait: `handleWrite` will do it
      rw [shutdownInLoop_of_waiting hopen hempty]
      exact ⟨hopen, .inr rfl, h.bytes, ShutdownOk.of_no_shutdown hnone⟩
  · rw [if_neg hconn]
    exact h

/-- `handleWrite` keeps the stream. -/
theorem InOrder.handleWrite (h : InOrder io stream) (w : WriteResult) :
    ∃ io', ∃ fs : List ConnFunctor, io.handleWrite w = some io' ∧ (∀ f ∈ fs, f.isUser = true) ∧
      io'.queue = io.queue ++ fs.map (io.ptr, ·) ∧ io'.conn.state_ = io.conn.state_ ∧
      InOrder io' stream := by
  obtain ⟨io', fs, es, hwrite, hdrain⟩ := handleWrite_spec h.isOpen w
  have hstate := hdrain.state
  have hbytes : acceptedBytes io'.trace ++ io'.conn.outputBuffer_.readable = stream := by
    rw [hdrain.ext.trace, acceptedBytes_append, List.append_assoc, hdrain.bytes, h.bytes]
  refine ⟨io', fs, hwrite, hdrain.user, hdrain.ext.queue, hstate, hdrain.isOpen,
    hstate ▸ h.state, hbytes, ?_⟩
  have hempty : io.conn.outputBuffer_.readable = [] → io'.conn.outputBuffer_.readable = [] := by
    intro hnil
    have hsplit := hdrain.bytes
    rw [hnil] at hsplit
    exact (List.append_eq_nil_iff.mp hsplit).2
  rcases hdrain.events with hes | ⟨accepted, hes⟩ | ⟨accepted, hes, hdisc, hwaiting, hdrained⟩
  · exact h.shut.append hdrain.ext.trace (by simp [hes]) hstate hempty
  · exact h.shut.append hdrain.ext.trace (by simp [hes]) hstate hempty
  · -- the last byte is out and the deferred shutdown is made
    have hall : acceptedBytes (io.trace ++ [.write accepted]) = stream := by
      rw [← hbytes, hdrained, hdrain.ext.trace, hes]
      simp [acceptedBytes]
    exact ShutdownOk.first [.write accepted] (hdrain.ext.trace.trans (by rw [hes]; rfl))
      (h.no_shutdown (.inr hwaiting)) (by simp) hall ⟨hstate.trans hdisc, hdrained⟩

/-- An established connection is not `kConnecting` any more. -/
theorem InOrder.not_connecting (h : InOrder io stream) : io.conn.state_ ≠ .kConnecting := by
  rcases h.state with hstate | hstate <;> simp [hstate]

/-- `connectEstablished` opens a fresh connection. -/
theorem connectEstablished_fresh (sockfd : Int) (user : UserCallbacks) :
    ∃ io, (ConnIo.fresh sockfd user).connectEstablished = some io ∧
      io.conn.state_ = .kConnected ∧ io.queue = [] ∧ io.trace = [.connectionCallback true] ∧
      InOrder io [] := by
  have hagrees : (ConnIo.fresh sockfd user).Agrees := EPollPoller.agrees_new () sockfd
  obtain ⟨io, hest, hopen, hstate, -, -, -, -, hqueue, htrace, hempty⟩ :=
    connectEstablished_spec hagrees rfl (Buffer.readable_new _) (Buffer.wf_new _)
      (Buffer.wf_new _)
  have htrace' : io.trace = [.connectionCallback true] := htrace
  refine ⟨io, hest, hstate, hqueue, htrace', hopen, .inl hstate, ?_, ?_⟩
  · rw [htrace', hempty]
    rfl
  · exact ShutdownOk.of_no_shutdown (by simp [htrace'])

end ConnIo

/-! ## §4 Every run -/

/-- The invariant: not yet established, or established and in order. -/
def SendInv (sockfd : Int) (user : UserCallbacks) (s : SendRun) : Prop :=
  s = ⟨.fresh sockfd user, []⟩ ∨ s.io.InOrder s.sent.flatten

/-- `SendInv` is an inductive invariant. -/
theorem sendInv_invariant (sockfd : Int) (user : UserCallbacks) :
    sendMachine.Invariant ⟨.fresh sockfd user, []⟩ (SendInv sockfd user) where
  init := .inl rfl
  step := by
    intro s a h he
    change s.enabled a = true at he
    show ∃ t, s.step a = some t ∧ _
    rcases h with rfl | h
    · -- only `connectEstablished` can be taken first
      cases a with
      | connectEstablished =>
        obtain ⟨io, hest, -, -, -, horder⟩ := ConnIo.connectEstablished_fresh sockfd user
        refine ⟨⟨io, []⟩, ?_, .inr horder⟩
        simp only [SendRun.step, hest, Option.map_some]
      | send msg w => exact absurd he (by simp [SendRun.enabled, ConnIo.fresh, TcpConnection.new])
      | shutdown => exact absurd he (by simp [SendRun.enabled, ConnIo.fresh, TcpConnection.new])
      | writable w =>
        exact absurd he (by simp [SendRun.enabled, ConnIo.fresh, TcpConnection.new])
    · cases a with
      | connectEstablished =>
        -- a connection is established once
        exact absurd (by simpa [SendRun.enabled] using he) h.not_connecting
      | send msg w =>
        simp only [SendRun.enabled, Bool.and_eq_true, Bool.not_eq_true'] at he
        by_cases hconn : s.io.conn.state_ = .kConnected
        · obtain ⟨io', -, hsend, -, -, -, horder⟩ := h.send hconn msg he.2
          refine ⟨⟨io', s.sent ++ [msg]⟩, ?_, .inr ?_⟩
          · simp only [SendRun.step, hsend, if_pos hconn, Option.map_some]
          · simpa using horder
        · -- not connected any more: `send` ignores the message
          refine ⟨s, ?_, .inr h⟩
          simp only [SendRun.step, ConnIo.send, if_neg hconn, Option.map_some]
      | shutdown => exact ⟨_, rfl, .inr h.shutdown⟩
      | writable w =>
        obtain ⟨io', -, hwrite, -, -, -, horder⟩ := h.handleWrite w
        refine ⟨⟨io', s.sent⟩, ?_, .inr horder⟩
        simp only [SendRun.step, hwrite, Option.map_some]

/-- **The bytes of a connection go out in order.** In every state that a run of `send`,
    `shutdown` and `EPOLLOUT` reaches, for every user's callbacks and every answers of
    `::write` without fault error: the bytes accepted and the bytes waiting make up the
    messages sent while `kConnected`, in call order; the channel is interested in writing
    exactly when bytes wait; `shutdownWrite` is called at most once, when every byte has been
    accepted; and no step faults. -/
theorem sendRun_reaches_in_order {sockfd : Int} {user : UserCallbacks} {as : List SendAct}
    {s : SendRun} (h : sendMachine.Reaches ⟨.fresh sockfd user, []⟩ as s) :
    acceptedBytes s.io.trace ++ s.io.conn.outputBuffer_.readable = s.sent.flatten ∧
    (s.io.conn.channel_.isWriting = true ↔ s.io.conn.outputBuffer_.readable ≠ []) ∧
    s.io.trace.count .shutdownWrite ≤ 1 ∧
    (∀ before after, s.io.trace = before ++ .shutdownWrite :: after →
      acceptedBytes before = s.sent.flatten) ∧
    sendMachine.Safe s := by
  have hsafe := Machine.invariant_safe (sendInv_invariant sockfd user) h
  rcases Machine.invariant_reaches (sendInv_invariant sockfd user) h with rfl | hok
  · refine ⟨?_, ?_, Nat.zero_le _, ?_, hsafe⟩
    · exact (List.nil_append _).trans (Buffer.readable_new _)
    · refine iff_of_false (show ¬ EventMask.has 0 kWriteEvent = true by decide) ?_
      intro hne
      exact hne (Buffer.readable_new _)
    · exact atEach_of_not_mem (List.not_mem_nil)
  · exact ⟨hok.bytes, hok.isOpen.isWriting_iff, hok.shut.once, hok.shut.after, hsafe⟩

/-- Two messages, the first cut in the middle, and a shutdown that has to wait. -/
def deferredShutdownRun : List SendAct :=
  [.connectEstablished, .send [1, 2, 3] (.accepted 1), .send [4] (.accepted 0), .shutdown,
    .writable (.error .EWOULDBLOCK), .writable (.accepted 3)]

theorem deferredShutdownRun_in_order :
    ∃ s, sendMachine.Reaches ⟨.fresh 5 ⟨true, true, 2⟩, []⟩ deferredShutdownRun s ∧
      acceptedBytes s.io.trace ++ s.io.conn.outputBuffer_.readable = [1, 2, 3, 4] ∧
      s.io.trace.count .shutdownWrite ≤ 1 := by
  have hrun : (sendMachine.run ⟨.fresh 5 ⟨true, true, 2⟩, []⟩ deferredShutdownRun).map
      (fun s => s.sent) = some [[1, 2, 3], [4]] := by decide +kernel
  obtain ⟨s, hs, hsent⟩ := Option.map_eq_some_iff.mp hrun
  have hreach := Machine.reaches_of_run hs
  obtain ⟨hbytes, -, honce, -, -⟩ := sendRun_reaches_in_order hreach
  refine ⟨s, hreach, ?_, honce⟩
  rw [hbytes, hsent]
  rfl

end RainWebServer.Net
