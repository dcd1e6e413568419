import RainWebServer.Lib.Machine
import RainWebServer.Net.TcpConnectionSteps
import Mathlib.Algebra.Group.Nat.Defs
import Mathlib.Data.Fintype.Basic

/-!
# TcpServer: Many Connections on Many Loops

Embeds `src/net/TcpServer.cc` with the parts of `EventLoop::loop` and `Channel::handleEvent`
that its connections meet: the poll, the walk over `activeChannels_`, and
`doPendingFunctors`, on the base loop and on any number of other loops.

A connection is named by the number of the `newConnection` call that made it, so a name is
never used twice although an fd is. The functions of a connection act on its own members and
on the poller and the queue of its loop (`view`, `putView`).

What the kernel and the users may do is the `enabled` of the machine: polls report registered
fds, a new connection gets an fd that no living connection has, and users call a connection
on its own loop's thread. The wakeup channels and the acceptor's channel have fds of their own
and are left out; an accepted connection is an action of the base loop.
-/

namespace RainWebServer.Net

open RainWebServer.Lib

/-! ## §1 Names -/

/-- `InetAddress`: the bytes of `sin_addr` and the port. -/
structure InetAddress where
  sin_addr : UInt8 × UInt8 × UInt8 × UInt8
  sin_port : UInt16

/-- `toIp`, as `inet_ntop` writes an IPv4 address. -/
def InetAddress.toIp (addr : InetAddress) : String :=
  let (a, b, c, d) := addr.sin_addr
  a.toNat.repr ++ "." ++ b.toNat.repr ++ "." ++ c.toNat.repr ++ "." ++ d.toNat.repr

/-- `toIpPort`. -/
def InetAddress.toIpPort (addr : InetAddress) : String :=
  addr.toIp ++ ":" ++ addr.sin_port.toNat.repr

/-- What `snprintf` leaves in a `char buf[64]`. -/
def snprintf64 (text : String) : String := String.ofList (text.toList.take 63)

/-- `connName` of `newConnection`. -/
def connName (name ipPort : String) (nextConnId : BitVec 32) : String :=
  name ++ snprintf64 ("-" ++ ipPort ++ "#" ++ nextConnId.toInt.repr)

theorem toIpPort_length (addr : InetAddress) : addr.toIpPort.length ≤ 21 := by
  obtain ⟨⟨a, b, c, d⟩, port⟩ := addr
  have hbyte : ∀ a : UInt8, a.toNat.repr.length ≤ 3 := fun a =>
    (Nat.length_repr_le_iff (by decide)).mpr (Nat.lt_trans a.toNat_lt (by decide))
  have hport : port.toNat.repr.length ≤ 5 :=
    (Nat.length_repr_le_iff (by decide)).mpr (Nat.lt_trans port.toNat_lt (by decide))
  have ha := hbyte a
  have hb := hbyte b
  have hc := hbyte c
  have hd := hbyte d
  have hdot : ".".length = 1 := rfl
  have hcolon : ":".length = 1 := rfl
  simp only [InetAddress.toIpPort, InetAddress.toIp, String.length_append, hdot, hcolon]
  omega

/-- A number that an `int` holds is printed in full. -/
theorem connName_ofNat (name : String) (addr : InetAddress) {k : Nat} (hk : k < 2 ^ 31) :
    connName name addr.toIpPort (BitVec.ofNat 32 k) =
      name ++ ("-" ++ addr.toIpPort ++ "#" ++ k.repr) := by
  have hint : (BitVec.ofNat 32 k).toInt = k := by
    rw [BitVec.toInt_eq_toNat_of_lt] <;> simp only [BitVec.toNat_ofNat] <;> omega
  have haddr := toIpPort_length addr
  have hrepr : k.repr.length ≤ 10 :=
    (Nat.length_repr_le_iff (by decide)).mpr (Nat.lt_trans hk (by decide))
  have hdash : "-".length = 1 := rfl
  have hhash : "#".length = 1 := rfl
  have hlength : ("-" ++ addr.toIpPort ++ "#" ++ k.repr).length ≤ 63 := by
    simp only [String.length_append, hdash, hhash]
    omega
  have hshow : (k : Int).repr = k.repr := rfl
  rw [← String.length_toList] at hlength
  rw [connName, hint, hshow, snprintf64, List.take_of_length_le hlength, String.ofList_toList]

/-- **Two connections have different names.** -/
theorem connName_inj (name : String) (addr : InetAddress) {j k : Nat} (hj : j < 2 ^ 31)
    (hk : k < 2 ^ 31)
    (h : connName name addr.toIpPort (BitVec.ofNat 32 j) =
      connName name addr.toIpPort (BitVec.ofNat 32 k)) : j = k := by
  rw [connName_ofNat name addr hj, connName_ofNat name addr hk] at h
  simp only [String.append_right_inj] at h
  -- a number is read back from its digits
  have hdigits : Nat.toDigits 10 j = Nat.toDigits 10 k := by
    rw [← Nat.toList_repr, ← Nat.toList_repr, h]
  rw [← Nat.ofDigitChars_ten_toDigits (n := j), hdigits, Nat.ofDigitChars_ten_toDigits]

/-! ## §2 Loops and connections -/

/-- A `TcpConnection *`: the number of the `newConnection` call that made the object. -/
abbrev ConnId := Nat

/-- The functor's `std::bind` holds a `TcpConnectionPtr`; the others hold `this`. -/
def ConnFunctor.bindsShared : ConnFunctor → Bool
  | .sendInLoop _ _ | .shutdownInLoop => false
  | _ => true

/-- A `handleEvent` under way: whether it holds the guard, and the calls it has still to make. -/
structure Dispatch where
  conn : ConnId
  guard : Bool
  todo : List HandlerOp
  deriving DecidableEq, Repr

/-- Where a thread is in `EventLoop::loop`. -/
inductive LoopPhase where
  | polling
  /-- In the loop over `activeChannels_`, of which these are left. -/
  | dispatching (activeChannels : List ConnId) (current : Option Dispatch)
  /-- In `doPendingFunctors`, with the elements of `functors` that ran and those that did not. -/
  | runningFunctors (ran rest : List (ConnId × ConnFunctor))

/-- An `EventLoop` with its poller. -/
structure ServerLoop where
  poller : EPollPoller ConnId
  pendingFunctors_ : List (ConnId × ConnFunctor)
  phase : LoopPhase

/-- A functor of the list shares the connection. -/
def sharedBy (c : ConnId) (fs : List (ConnId × ConnFunctor)) : Bool :=
  fs.any fun p => p.1 = c && p.2.bindsShared

/-- The loop's thread or its queue has a `shared_ptr` to the connection. -/
def ServerLoop.holds (loop : ServerLoop) (c : ConnId) : Bool :=
  sharedBy c loop.pendingFunctors_ || match loop.phase with
  | .polling => false
  | .dispatching _ none => false
  | .dispatching _ (some d) => d.guard && d.conn = c
  -- the vector keeps its functors until `doPendingFunctors` returns
  | .runningFunctors ran rest => sharedBy c ran || sharedBy c rest

/-- A connection with the members that the server reads. -/
structure ServerConn (L : Type) where
  loop_ : L
  name_ : String
  conn : TcpConnection

/-- The calls whose order matters. -/
inductive ServerCall where
  | newConnection
  | connectEstablished
  | handleEvent
  | handleClose
  | removeConnectionInLoop
  | connectDestroyed
  deriving DecidableEq, Repr

/-- What the server is constructed and configured with. -/
structure ServerConfig (L : Type) where
  loop_ : L
  ipPort_ : InetAddress
  name_ : String
  writeCompleteCallback_ : Bool

/-- The server with its loops and all connections ever made; `calls` notes which function ran
    on which loop's thread for which connection. -/
structure TcpServer (L : Type) where
  loops : L → ServerLoop
  conns : ConnId → ServerConn L
  accepted : Nat
  nextConnId_ : BitVec 32
  connections_ : List (String × ConnId)
  calls : List (L × ConnId × ServerCall)

namespace TcpServer

variable {L : Type} [DecidableEq L]

/-- A server right after its start. No connection exists; `conns` is only read below `accepted`. -/
def start (cfg : ServerConfig L) : TcpServer L where
  loops _ := ⟨.new, [], .polling⟩
  conns _ := ⟨cfg.loop_, cfg.name_, .new 0⟩
  accepted := 0
  nextConnId_ := 1
  connections_ := []
  calls := []

/-- Some `shared_ptr` to the connection exists: the map's, a functor's or a dispatch guard. -/
def held [Fintype L] (s : TcpServer L) (c : ConnId) : Bool :=
  s.connections_.any (fun p => p.2 = c) || decide (∃ l, (s.loops l).holds c = true)

/-- The fd is open as long as its connection lives. -/
def unusedFd [Fintype L] (s : TcpServer L) (fd : Int) : Bool :=
  (List.range s.accepted).all fun c => !(s.held c && (s.conns c).conn.channel_.fd_ = fd)

/-! ## §3 Pieces of the functions -/

/-- Note that the function ran on the thread of `l`. -/
def note (s : TcpServer L) (l : L) (c : ConnId) (call : ServerCall) : TcpServer L :=
  { s with calls := s.calls ++ [(l, c, call)] }

def setLoop (s : TcpServer L) (l : L) (loop : ServerLoop) : TcpServer L :=
  { s with loops := Function.update s.loops l loop }

def setPhase (s : TcpServer L) (l : L) (phase : LoopPhase) : TcpServer L :=
  s.setLoop l { s.loops l with phase := phase }

/-- `queueInLoop`. -/
def queueInLoop (s : TcpServer L) (l : L) (c : ConnId) (f : ConnFunctor) : TcpServer L :=
  s.setLoop l { s.loops l with pendingFunctors_ := (s.loops l).pendingFunctors_ ++ [(c, f)] }

/-- The connection with the poller and the queue of its loop. -/
def view (s : TcpServer L) (c : ConnId) : ConnIo ConnId where
  ptr := c
  conn := (s.conns c).conn
  poller := (s.loops (s.conns c).loop_).poller
  queue := (s.loops (s.conns c).loop_).pendingFunctors_
  trace := []

/-- The server after a function of the connection ran. -/
def putView (s : TcpServer L) (c : ConnId) (io : ConnIo ConnId) : TcpServer L :=
  { s with conns := Function.update s.conns c { s.conns c with conn := io.conn } }.setLoop
    (s.conns c).loop_
    { s.loops (s.conns c).loop_ with poller := io.poller, pendingFunctors_ := io.queue }

/-- `connections_[name] = conn`. -/
def insertConnection (s : TcpServer L) (name : String) (c : ConnId) : TcpServer L :=
  { s with connections_ := (name, c) :: s.connections_.filter (fun p => p.1 ≠ name) }

/-- `connections_.erase(name)`. -/
def eraseConnection (s : TcpServer L) (name : String) : TcpServer L :=
  { s with connections_ := s.connections_.filter (fun p => p.1 ≠ name) }

/-! ## §4 The functions -/

/-- `connectEstablished` on the thread of `l`. -/
def connectEstablished (s : TcpServer L) (l : L) (c : ConnId) : Option (TcpServer L) := do
  let io ← (s.view c).connectEstablished
  some ((s.putView c io).note l c .connectEstablished)

/-- `connectDestroyed` on the thread of `l`. -/
def connectDestroyed (s : TcpServer L) (l : L) (c : ConnId) : Option (TcpServer L) := do
  let io ← (s.view c).connectDestroyed
  some ((s.putView c io).note l c .connectDestroyed)

/-- `removeConnectionInLoop` on the thread of `l`. -/
def removeConnectionInLoop (s : TcpServer L) (l : L) (c : ConnId) : TcpServer L :=
  ((s.eraseConnection (s.conns c).name_).queueInLoop (s.conns c).loop_ c .connectDestroyed).note
    l c .removeConnectionInLoop

/-- `removeConnection`, called on the thread of `l`. -/
def removeConnection (cfg : ServerConfig L) (s : TcpServer L) (l : L) (c : ConnId) :
    TcpServer L :=
  if l = cfg.loop_ then s.removeConnectionInLoop l c
  else s.queueInLoop cfg.loop_ c .removeConnectionInLoop

/-- `newConnection` up to its last call: the object is made and put into the map. -/
def makeConnection (cfg : ServerConfig L) (s : TcpServer L) (sockfd : Int) (ioLoop : L) :
    TcpServer L :=
  let c := s.accepted
  let name := connName cfg.name_ cfg.ipPort_.toIpPort s.nextConnId_
  let conn := { TcpConnection.new sockfd with
    writeCompleteCallback_ := cfg.writeCompleteCallback_ }
  let s := { s with
    conns := Function.update s.conns c ⟨ioLoop, name, conn⟩
    accepted := c + 1
    nextConnId_ := s.nextConnId_ + 1 }
  (s.insertConnection name c).note cfg.loop_ c .newConnection

/-- `newConnection`, when `getNextLoop` answers `ioLoop`. -/
def newConnection (cfg : ServerConfig L) (s : TcpServer L) (sockfd : Int) (ioLoop : L) :
    Option (TcpServer L) :=
  let c := s.accepted
  let s := s.makeConnection cfg sockfd ioLoop
  if ioLoop = cfg.loop_ then s.connectEstablished cfg.loop_ c
  else some (s.queueInLoop ioLoop c .connectEstablished)

/-- `fillActiveChannels`: set `revents_` of the channels reported, and list them. -/
def fillActiveChannels (poller : EPollPoller ConnId) (conns : ConnId → ServerConn L) :
    List (Int × EventMask) → (ConnId → ServerConn L) × List ConnId
  | [] => (conns, [])
  | (fd, revents) :: events =>
    match poller.interest fd with
    | none => fillActiveChannels poller conns events
    | some (_, c) =>
      let channel := { (conns c).conn.channel_ with revents_ := revents }
      let conns := Function.update conns c
        { conns c with conn := { (conns c).conn with channel_ := channel } }
      let (conns, activeChannels) := fillActiveChannels poller conns events
      (conns, c :: activeChannels)

/-- `poll` returns. -/
def poll (s : TcpServer L) (l : L) (events : List (Int × EventMask)) : TcpServer L :=
  let filled := fillActiveChannels (s.loops l).poller s.conns events
  { s with conns := filled.1 }.setPhase l (.dispatching filled.2 none)

/-- `handleEvent` of the next active channel begins. The channel belongs to its connection, so
    it must not be gone. -/
def handleEvent [Fintype L] (s : TcpServer L) (l : L) : Option (TcpServer L) :=
  match (s.loops l).phase with
  | .dispatching (c :: activeChannels) none =>
    if s.held c then
      let channel := (s.conns c).conn.channel_
      let current : Dispatch := ⟨c, channel.tied_, handleEventWithGuard channel.revents_⟩
      some ((s.setPhase l (.dispatching activeChannels (some current))).note l c .handleEvent)
    else none
  | _ => some s

/-- The next callback of the dispatch runs. -/
def handler (cfg : ServerConfig L) (s : TcpServer L) (l : L) (r : ReadResult) (w : WriteResult) :
    Option (TcpServer L) :=
  match (s.loops l).phase with
  | .dispatching activeChannels (some ⟨c, guard, op :: todo⟩) => do
    let (io, ops) ← (s.view c).runHandler r w op
    let s := (s.putView c io).setPhase l
      (.dispatching activeChannels (some ⟨c, guard, ops ++ todo⟩))
    some (match op with
      | .handleClose => s.note l c .handleClose
      | .closeCallback => s.removeConnection cfg l c
      | _ => s)
  | _ => some s

/-- A functor of the batch. The bytes at the address of a `sendInLoop`, the content of the file
    of a `sendFileInLoop` and the kernel's answer are given. -/
def runFunctor (s : TcpServer L) (l : L) (bytes file : List Byte) (w : WriteResult)
    (c : ConnId) : ConnFunctor → Option (TcpServer L)
  | .connectEstablished => s.connectEstablished l c
  | .removeConnectionInLoop => some (s.removeConnectionInLoop l c)
  | .connectDestroyed => s.connectDestroyed l c
  | .sendInLoop _ _ => ((s.view c).sendInLoop bytes w).map (s.putView c)
  | .shutdownInLoop => some (s.putView c (s.view c).shutdownInLoop)
  | .sendFileInLoop fileDescriptor offset count =>
    some (s.putView c ((s.view c).sendFileInLoop file fileDescriptor offset count w))
  -- a user callback, whose calls are actions of their own
  | .writeCompleteCallback | .highWaterMarkCallback _ => some s

/-- The next functor of the batch runs; its connection must not be gone. -/
def functor [Fintype L] (s : TcpServer L) (l : L) (bytes file : List Byte) (w : WriteResult) :
    Option (TcpServer L) :=
  match (s.loops l).phase with
  | .runningFunctors ran ((c, f) :: rest) =>
    if s.held c then
      (s.setPhase l (.runningFunctors (ran ++ [(c, f)]) rest)).runFunctor l bytes file w c f
    else none
  | _ => some s

/-- What a user calls on a connection. -/
inductive UserCall where
  | send (msg : List Byte) (w : WriteResult)
  | shutdown
  | sendFile (file : List Byte) (fileDescriptor : Int) (offset count : Nat) (w : WriteResult)
  | setHighWaterMarkCallback (highWaterMark : Nat)

/-- The call on the connection. -/
def UserCall.apply (io : ConnIo ConnId) : UserCall → Option (ConnIo ConnId)
  | .send msg w => io.send msg w
  | .shutdown => some io.shutdown
  | .sendFile file fileDescriptor offset count w =>
    some (io.sendFile file fileDescriptor offset count w)
  | .setHighWaterMarkCallback highWaterMark =>
    some { io with conn := { io.conn with
      highWaterMarkCallback_ := true
      highWaterMark_ := highWaterMark } }

end TcpServer

/-! ## §5 The machine -/

/-- A step of a loop's thread `l`. -/
inductive ServerAct (L : Type) where
  /-- `epoll_wait` returns these fds and masks. -/
  | poll (l : L) (events : List (Int × EventMask))
  | handleEvent (l : L)
  /-- The next callback of the dispatch, with the answers it may need. -/
  | handler (l : L) (r : ReadResult) (w : WriteResult)
  /-- The dispatch returns. -/
  | endEvent (l : L)
  /-- The acceptor's channel is dispatched on the base loop and a connection is accepted. -/
  | newConnection (sockfd : Int) (ioLoop : L)
  /-- `doPendingFunctors` takes the queue. -/
  | doPendingFunctors (l : L)
  | functor (l : L) (bytes file : List Byte) (w : WriteResult)
  /-- `doPendingFunctors` returns, and the vector of functors goes. -/
  | endFunctors (l : L)
  /-- User code on the thread calls a connection of its loop. -/
  | user (l : L) (c : ConnId) (call : TcpServer.UserCall)

namespace TcpServer

variable {L : Type} [DecidableEq L] [Fintype L]

/-- The kernel never reports `EPOLLHUP` with `EPOLLPRI` and without `EPOLLIN`. -/
def reportable (revents : EventMask) : Bool :=
  !(revents.has EPOLLHUP && revents.has EPOLLPRI && !revents.has EPOLLIN)

/-- Which actions can be taken. -/
def enabled (cfg : ServerConfig L) (s : TcpServer L) : ServerAct L → Bool
  | .poll l events => match (s.loops l).phase with
    | .polling => (events.map Prod.fst).Nodup && events.all fun e =>
        ((s.loops l).poller.interest e.1).isSome && reportable e.2
    | _ => false
  | .handleEvent l => match (s.loops l).phase with
    | .dispatching (_ :: _) none => true
    | _ => false
  | .handler l _ _ => match (s.loops l).phase with
    | .dispatching _ (some ⟨_, _, _ :: _⟩) => true
    | _ => false
  | .endEvent l => match (s.loops l).phase with
    | .dispatching _ (some ⟨_, _, []⟩) => true
    | _ => false
  | .newConnection sockfd _ => match (s.loops cfg.loop_).phase with
    | .dispatching _ none => s.unusedFd sockfd && decide (s.accepted + 1 < 2 ^ 31)
    | _ => false
  | .doPendingFunctors l => match (s.loops l).phase with
    | .dispatching [] none => true
    | _ => false
  | .functor l _ _ _ => match (s.loops l).phase with
    | .runningFunctors _ (_ :: _) => true
    | _ => false
  | .endFunctors l => match (s.loops l).phase with
    | .runningFunctors _ [] => true
    | _ => false
  | .user l c _ => decide (c < s.accepted) && s.held c && decide ((s.conns c).loop_ = l)

/-- The effect of an action. -/
def step (cfg : ServerConfig L) (s : TcpServer L) : ServerAct L → Option (TcpServer L)
  | .poll l events => some (s.poll l events)
  | .handleEvent l => s.handleEvent l
  | .handler l r w => s.handler cfg l r w
  | .endEvent l => match (s.loops l).phase with
    | .dispatching activeChannels _ => some (s.setPhase l (.dispatching activeChannels none))
    | _ => some s
  | .newConnection sockfd ioLoop => s.newConnection cfg sockfd ioLoop
  | .doPendingFunctors l =>
    some (s.setLoop l { s.loops l with
      pendingFunctors_ := []
      phase := .runningFunctors [] (s.loops l).pendingFunctors_ })
  | .functor l bytes file w => s.functor l bytes file w
  | .endFunctors l => some (s.setPhase l .polling)
  | .user _ c call => (call.apply (s.view c)).map (s.putView c)

end TcpServer

/-- Runs of a server. -/
def tcpServerMachine {L : Type} [DecidableEq L] [Fintype L] (cfg : ServerConfig L) :
    Machine (TcpServer L) (ServerAct L) :=
  ⟨TcpServer.enabled cfg, TcpServer.step cfg⟩

end RainWebServer.Net
