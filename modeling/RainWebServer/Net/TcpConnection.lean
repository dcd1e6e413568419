import RainWebServer.Net.Buffer
import RainWebServer.Net.EPollPoller

/-!
# TcpConnection

Embeds `src/net/TcpConnection.cc`. A function of the class becomes a function on `ConnIo`: the
members of the connection, the poller and the functor queue of its loop, and the record of
what it did to the socket and of the callbacks it made.

The kernel's answers are arguments: what `::write` or `::sendfile` accepted, what `readv`
delivered. User callbacks are recorded; what the user does inside one is a later call on the
same connection.
-/

namespace RainWebServer.Net

/-! ## §1 The connection -/

/-- `StateE`. -/
inductive StateE where
  | kDisconnected
  | kConnecting
  | kConnected
  | kDisconnecting
  deriving DecidableEq, Repr

/-- The values of `errno` that the code tells apart. -/
inductive Errno where
  | EWOULDBLOCK
  | EPIPE
  | ECONNRESET
  | other
  deriving DecidableEq, Repr

/-- The answer to `::write` or `::sendfile`: so many bytes were accepted, or it failed. -/
inductive WriteResult where
  | accepted (n : Nat)
  | error (errno : Errno)
  deriving DecidableEq, Repr

/-- `errno == EPIPE || errno == ECONNRESET`. -/
def Errno.isFault (errno : Errno) : Bool := errno = .EPIPE || errno = .ECONNRESET

/-- The answer sets `faultError`. -/
def WriteResult.isFault : WriteResult → Bool
  | .accepted _ => false
  | .error errno => errno.isFault

/-- The answer to `readv`: these bytes (none at the end of the stream), or an error. -/
inductive ReadResult where
  | bytes (data : List Byte)
  | error
  deriving DecidableEq, Repr

/-- The members of `TcpConnection`; of the two optional callbacks, whether they are set. -/
structure TcpConnection where
  state_ : StateE
  channel_ : Channel
  inputBuffer_ : Buffer
  outputBuffer_ : Buffer
  highWaterMark_ : Nat
  writeCompleteCallback_ : Bool
  highWaterMarkCallback_ : Bool

/-- The constructor. -/
def TcpConnection.new (sockfd : Int) : TcpConnection :=
  { state_ := .kConnecting
    channel_ := .new sockfd
    inputBuffer_ := .new kInitialSize
    outputBuffer_ := .new kInitialSize
    highWaterMark_ := 64 * 1024 * 1024
    writeCompleteCallback_ := false
    highWaterMarkCallback_ := false }

/-- A functor that is bound to a connection and queued in a loop. -/
inductive ConnFunctor where
  | writeCompleteCallback
  | highWaterMarkCallback (size : Nat)
  /-- `sendInLoop`, bound to the address of the bytes and their number. -/
  | sendInLoop (data len : Nat)
  | shutdownInLoop
  | sendFileInLoop (fileDescriptor : Int) (offset count : Nat)
  | connectEstablished
  | removeConnectionInLoop
  | connectDestroyed
  deriving DecidableEq, Repr

/-- What a connection does that can be seen from outside. -/
inductive ConnEvent where
  /-- `::write`, with the bytes the socket accepted. -/
  | write (accepted : List Byte)
  /-- `::sendfile`, with the bytes the socket accepted. -/
  | sendfile (accepted : List Byte)
  /-- `socket_->shutdownWrite()`. -/
  | shutdownWrite
  /-- `setState(kDisconnected)`. -/
  | disconnected
  /-- `connectionCallback_`, with the value of `connected()`. -/
  | connectionCallback (connected : Bool)
  | messageCallback
  | closeCallback
  deriving DecidableEq, Repr

/-- A connection with what its functions touch: `ptr` stands for `this`, `poller` and `queue`
    (`pendingFunctors_`) belong to its loop. -/
structure ConnIo (Ch : Type) where
  ptr : Ch
  conn : TcpConnection
  poller : EPollPoller Ch
  queue : List (Ch × ConnFunctor)
  trace : List ConnEvent

namespace ConnIo

variable {Ch : Type}

/-! ## §2 The pieces of the functions -/

/-- Note an event. -/
def record (c : ConnIo Ch) (e : ConnEvent) : ConnIo Ch := { c with trace := c.trace ++ [e] }

/-- `loop_->queueInLoop` of a functor bound to the connection. -/
def queueInLoop (c : ConnIo Ch) (f : ConnFunctor) : ConnIo Ch :=
  { c with queue := c.queue ++ [(c.ptr, f)] }

/-- `setState`. -/
def setState (c : ConnIo Ch) (state : StateE) : ConnIo Ch :=
  { c with conn := { c.conn with state_ := state } }

def setOutputBuffer (c : ConnIo Ch) (buffer : Buffer) : ConnIo Ch :=
  { c with conn := { c.conn with outputBuffer_ := buffer } }

def setInputBuffer (c : ConnIo Ch) (buffer : Buffer) : ConnIo Ch :=
  { c with conn := { c.conn with inputBuffer_ := buffer } }

def setPolled (c : ConnIo Ch) (polled : EPollPoller Ch × Channel) : ConnIo Ch :=
  { c with poller := polled.1, conn := { c.conn with channel_ := polled.2 } }

/-- `channel->set_revents`, as the poller reports an event. -/
def setRevents (c : ConnIo Ch) (revents : EventMask) : ConnIo Ch :=
  { c with conn := { c.conn with channel_ := { c.conn.channel_ with revents_ := revents } } }

/-- Set the channel's mask and `update()` it, as `enableReading` .. `disableAll` do. -/
def setEvents (c : ConnIo Ch) (events : EventMask) : Option (ConnIo Ch) := do
  let polled ← c.poller.updateChannel c.ptr { c.conn.channel_ with events_ := events }
  some (c.setPolled polled)

/-- `channel_->enableReading()`. -/
def enableReading (c : ConnIo Ch) : Option (ConnIo Ch) :=
  c.setEvents (c.conn.channel_.events_ ||| kReadEvent)

/-- `channel_->enableWriting()`. -/
def enableWriting (c : ConnIo Ch) : Option (ConnIo Ch) :=
  c.setEvents (c.conn.channel_.events_ ||| kWriteEvent)

/-- `channel_->disableWriting()`. -/
def disableWriting (c : ConnIo Ch) : Option (ConnIo Ch) :=
  c.setEvents (c.conn.channel_.events_ &&& ~~~kWriteEvent)

/-- `channel_->disableAll()`. -/
def disableAll (c : ConnIo Ch) : Option (ConnIo Ch) := c.setEvents kNoneEvent

/-- `channel_->remove()`. -/
def removeChannel (c : ConnIo Ch) : Option (ConnIo Ch) := do
  let polled ← c.poller.removeChannel c.ptr c.conn.channel_
  some (c.setPolled polled)

/-- `connected`. -/
def connected (c : ConnIo Ch) : Bool := c.conn.state_ = .kConnected

/-- `!channel_->isWriting() && outputBuffer_.readableBytes() == 0`. -/
def idle (c : ConnIo Ch) : Bool :=
  !c.conn.channel_.isWriting && c.conn.outputBuffer_.readableBytes = 0

/-- Queue the write-complete callback if it is set. -/
def queueWriteComplete (c : ConnIo Ch) : ConnIo Ch :=
  if c.conn.writeCompleteCallback_ then c.queueInLoop .writeCompleteCallback else c

/-- Queue the high-water-mark callback if it is set and `remaining` bytes cross the mark. -/
def queueHighWaterMark (c : ConnIo Ch) (remaining : Nat) : ConnIo Ch :=
  let oldLen := c.conn.outputBuffer_.readableBytes
  if oldLen + remaining ≥ c.conn.highWaterMark_ ∧ oldLen < c.conn.highWaterMark_ ∧
      c.conn.highWaterMarkCallback_ then
    c.queueInLoop (.highWaterMarkCallback (oldLen + remaining))
  else c

/-! ## §3 The functions -/

/-- The end of `sendInLoop`, when no fault error happened: what remains goes to the output
    buffer, and the channel gets interested in writing. -/
def bufferRemaining (c : ConnIo Ch) (rest : List Byte) : Option (ConnIo Ch) :=
  if rest.length > 0 then do
    let c := c.queueHighWaterMark rest.length
    let buffer ← c.conn.outputBuffer_.append rest
    let c := c.setOutputBuffer buffer
    if !c.conn.channel_.isWriting then c.enableWriting else some c
  else some c

/-- `sendInLoop`. In `kDisconnected` it only logs that it gives up writing, and goes on. -/
def sendInLoop (c : ConnIo Ch) (data : List Byte) (w : WriteResult) : Option (ConnIo Ch) :=
  -- only with nothing buffered may the bytes go to the socket at once
  if c.idle then
    match w with
    | .accepted n =>
      let c := c.record (.write (data.take n))
      let c := if data.length - n = 0 then c.queueWriteComplete else c
      c.bufferRemaining (data.drop n)
    | .error errno =>
      let c := c.record (.write [])
      -- a fault drops the data, any other error buffers all of it
      if errno.isFault then some c else c.bufferRemaining data
  else c.bufferRemaining data

/-- `send` on the loop's thread. -/
def send (c : ConnIo Ch) (buf : List Byte) (w : WriteResult) : Option (ConnIo Ch) :=
  if c.conn.state_ = .kConnected then c.sendInLoop buf w else some c

/-- `shutdownInLoop`. -/
def shutdownInLoop (c : ConnIo Ch) : ConnIo Ch :=
  if !c.conn.channel_.isWriting then c.record .shutdownWrite else c

/-- `shutdown` on the loop's thread. -/
def shutdown (c : ConnIo Ch) : ConnIo Ch :=
  if c.conn.state_ = .kConnected then (c.setState .kDisconnecting).shutdownInLoop else c

/-- `channel_->tie(shared_from_this())`. -/
def tie (c : ConnIo Ch) : ConnIo Ch :=
  { c with conn := { c.conn with channel_ := { c.conn.channel_ with tied_ := true } } }

/-- `connectEstablished`. -/
def connectEstablished (c : ConnIo Ch) : Option (ConnIo Ch) := do
  let c ← ((c.setState .kConnected).tie).enableReading
  some (c.record (.connectionCallback c.connected))

/-- `setState(kDisconnected); channel_->disableAll(); connectionCallback_(..)`. -/
def disconnect (c : ConnIo Ch) : Option (ConnIo Ch) := do
  let c ← ((c.setState .kDisconnected).record .disconnected).disableAll
  some (c.record (.connectionCallback c.connected))

/-- `connectDestroyed`. -/
def connectDestroyed (c : ConnIo Ch) : Option (ConnIo Ch) := do
  let c ← if c.conn.state_ = .kConnected then c.disconnect else some c
  c.removeChannel

/-- `handleClose` up to the call of `closeCallback_`. -/
def handleClose (c : ConnIo Ch) : Option (ConnIo Ch) := c.disconnect

/-- `handleWrite`. -/
def handleWrite (c : ConnIo Ch) (w : WriteResult) : Option (ConnIo Ch) :=
  if c.conn.channel_.isWriting then
    match w with
    | .accepted n =>
      if n > 0 then
        let c := c.record (.write (c.conn.outputBuffer_.readable.take n))
        let c := c.setOutputBuffer (c.conn.outputBuffer_.retrieve n)
        if c.conn.outputBuffer_.readableBytes = 0 then do
          let c ← c.disableWriting
          let c := c.queueWriteComplete
          some (if c.conn.state_ = .kDisconnecting then c.shutdownInLoop else c)
        else some c
      else some (c.record (.write []))
    | .error _ => some (c.record (.write []))
  else some c

/-- `sendFileInLoop`; `file` is the content of the file. -/
def sendFileInLoop (c : ConnIo Ch) (file : List Byte) (fileDescriptor : Int)
    (offset count : Nat) (w : WriteResult) : ConnIo Ch :=
  if c.conn.state_ = .kDisconnecting then c
  else if c.idle then
    match w with
    | .accepted n =>
      let c := c.record (.sendfile (((file.drop offset).take count).take n))
      let c := if count - n = 0 then c.queueWriteComplete else c
      if count - n > 0 then
        c.queueInLoop (.sendFileInLoop fileDescriptor (offset + n) (count - n))
      else c
    | .error errno =>
      let c := c.record (.sendfile [])
      if !errno.isFault && count > 0 then
        c.queueInLoop (.sendFileInLoop fileDescriptor offset count)
      else c
  else if count > 0 then c.queueInLoop (.sendFileInLoop fileDescriptor offset count)
  else c

/-- `sendFile` on the loop's thread. -/
def sendFile (c : ConnIo Ch) (file : List Byte) (fileDescriptor : Int) (offset count : Nat)
    (w : WriteResult) : ConnIo Ch :=
  if c.connected then c.sendFileInLoop file fileDescriptor offset count w else c

end ConnIo

/-! ## §4 Event dispatch -/

/-- A callback of the channel, in `handleEventWithGuard`; `closeCallback` is the last call of
    `handleClose`, which leaves the connection for its server. -/
inductive HandlerOp where
  | handleClose
  | closeCallback
  | handleError
  | handleRead
  | handleWrite
  deriving DecidableEq, Repr

/-- The calls that `handleEventWithGuard` makes for `revents_`, in order. -/
def handleEventWithGuard (revents : EventMask) : List HandlerOp :=
  (if revents.has EPOLLHUP && !revents.has EPOLLIN then [.handleClose, .closeCallback] else []) ++
  (if revents.has EPOLLERR then [.handleError] else []) ++
  (if revents.has (EPOLLIN ||| EPOLLPRI) then [.handleRead] else []) ++
  (if revents.has EPOLLOUT then [.handleWrite] else [])

namespace ConnIo

/-- `handleRead`, with the calls that it makes before it returns. -/
def handleRead (c : ConnIo Ch) : ReadResult → Option (ConnIo Ch × List HandlerOp)
  | .bytes data =>
    if data.length > 0 then do
      let buffer ← c.conn.inputBuffer_.readFd data
      some ((c.setInputBuffer buffer).record .messageCallback, [])
    else some (c, [.handleClose, .closeCallback])
  | .error => some (c, [.handleError])

/-- One callback of the channel, with the calls that it makes before it returns. -/
def runHandler (c : ConnIo Ch) (r : ReadResult) (w : WriteResult) :
    HandlerOp → Option (ConnIo Ch × List HandlerOp)
  | .handleClose => c.handleClose.map (·, [])
  | .closeCallback => some (c.record .closeCallback, [])
  | .handleError => some (c, [])
  | .handleRead => c.handleRead r
  | .handleWrite => (c.handleWrite w).map (·, [])

end ConnIo

end RainWebServer.Net
