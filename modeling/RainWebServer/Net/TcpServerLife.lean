import RainWebServer.Lib.Trace
import RainWebServer.Net.TcpServer

/-!
# The Life of a Connection

A connection passes through five calls: `newConnection`, `connectEstablished`, `handleClose`,
`removeConnectionInLoop` and `connectDestroyed` (`lifecycle`). How many of them have run is its
`stage`, and the stage decides what its members look like, which functor carries it to the
next stage, and which callbacks a dispatch may still make on it (`ConnInv`).

## Main results

- `UserCall.apply_spec`, `handleRead_life`, `handleWrite_life` : the calls between two stages
  keep the stage
- `ServerInv.of_frame` : a step on one connection is no concern of the others
-/

namespace RainWebServer.Net

open RainWebServer.Lib

/-! ## §1 Stages -/

/-- The functor takes its connection to the next stage. -/
def ConnFunctor.isLifecycle : ConnFunctor → Bool
  | .connectEstablished | .removeConnectionInLoop | .connectDestroyed => true
  | _ => false

/-- The functor is a user callback or goes on sending a file. -/
def ConnFunctor.isPlain : ConnFunctor → Bool
  | .writeCompleteCallback | .highWaterMarkCallback _ | .sendFileInLoop _ _ _ => true
  | _ => false

theorem ConnFunctor.isPlain_of_isUser {f : ConnFunctor} (h : f.isUser = true) :
    f.isPlain = true := by
  cases f <;> first | rfl | cases h

theorem ConnFunctor.isLifecycle_of_isPlain {f : ConnFunctor} (h : f.isPlain = true) :
    f.isLifecycle = false := by
  cases f <;> first | rfl | cases h

namespace ServerLoop

def queued (loop : ServerLoop) : List (ConnId × ConnFunctor) :=
  (match loop.phase with
    | .runningFunctors _ rest => rest
    | _ => []) ++ loop.pendingFunctors_

def dispatch (loop : ServerLoop) : Option Dispatch :=
  match loop.phase with
  | .dispatching _ current => current
  | _ => none

def active (loop : ServerLoop) : List ConnId :=
  match loop.phase with
  | .dispatching activeChannels _ => activeChannels
  | _ => []

end ServerLoop

/-- The calls of a connection's life, in order, with the loops whose threads make them. -/
def lifecycle {L : Type} (loop ioLoop : L) : List (L × ServerCall) :=
  [(loop, .newConnection), (ioLoop, .connectEstablished), (ioLoop, .handleClose),
    (loop, .removeConnectionInLoop), (ioLoop, .connectDestroyed)]

namespace TcpServer

variable {L : Type}

/-- The calls for one connection, with the loops. -/
def callsOf (s : TcpServer L) (c : ConnId) : List (L × ServerCall) :=
  s.calls.filterMap fun e => if e.2.1 = c then some (e.1, e.2.2) else none

/-- The calls for one connection that belong to its `lifecycle`. -/
def lifeCalls (s : TcpServer L) (c : ConnId) : List (L × ServerCall) :=
  (s.callsOf c).filter fun e => e.2 ≠ .handleEvent

/-- How many calls of its `lifecycle` a connection has behind it. -/
def stage (s : TcpServer L) (c : ConnId) : Nat := (s.lifeCalls c).length

/-- The function has run for the connection. -/
def HasRun (s : TcpServer L) (c : ConnId) (call : ServerCall) : Prop :=
  ∃ l, (l, c, call) ∈ s.calls

/-- The channel is `kNew`, and no interest list has an entry for it. -/
def Unregistered (s : TcpServer L) (c : ConnId) : Prop :=
  (s.conns c).conn.channel_.index_ = .kNew ∧
    ∀ l fd mask, (s.loops l).poller.interest fd ≠ some (mask, c)

theorem callsOf_note [DecidableEq L] (s : TcpServer L) (l : L) (c c' : ConnId) (call : ServerCall) :
    (s.note l c call).callsOf c' = s.callsOf c' ++ if c = c' then [(l, call)] else [] := by
  simp only [callsOf, note, List.filterMap_append]
  by_cases hc : c = c' <;> simp [hc]

/-- The functors of a loop that have not run, in the order in which they will. -/
def queued (s : TcpServer L) (l : L) : List (ConnId × ConnFunctor) := (s.loops l).queued

/-- Those of them that take the connection to its next stage. -/
def lifeQueued (s : TcpServer L) (l : L) (c : ConnId) : List ConnFunctor :=
  ((s.queued l).filter fun p => p.1 = c && p.2.isLifecycle).map Prod.snd

/-- The dispatch that a loop is in. -/
def dispatch (s : TcpServer L) (l : L) : Option Dispatch := (s.loops l).dispatch

/-- The channels that a loop has still to dispatch. -/
def active (s : TcpServer L) (l : L) : List ConnId := (s.loops l).active

/-- The callbacks that the dispatch of the connection has still to make; `none` outside of one. -/
def todoOf (s : TcpServer L) (c : ConnId) : Option (List HandlerOp) :=
  ((s.dispatch (s.conns c).loop_).filter fun d => d.conn = c).map Dispatch.todo

end TcpServer

/-! ## §2 The members of a connection at a stage -/

/-- A connection that is made and not established. -/
structure ConnIo.Fresh (io : ConnIo ConnId) : Prop where
  agrees : io.Agrees
  index : io.conn.channel_.index_ = .kNew
  events : io.conn.channel_.events_ = 0
  state : io.conn.state_ = .kConnecting
  empty : io.conn.outputBuffer_.readable = []
  outputWF : io.conn.outputBuffer_.WF
  inputWF : io.conn.inputBuffer_.WF

/-- The members of a connection after so many calls of its `lifecycle`. At the end the channel
    is out of the poller, and its fd may belong to another connection. -/
def ConnIo.Life (io : ConnIo ConnId) : Nat → Prop
  | 1 => io.Fresh
  | 2 => io.Open ∧ (io.conn.state_ = .kConnected ∨ io.conn.state_ = .kDisconnecting)
  | 3 | 4 => io.Closed ∧ io.conn.state_ = .kDisconnected
  | 5 => io.conn.channel_.index_ = .kNew ∧ io.conn.state_ = .kDisconnected
  | _ => False

namespace ConnIo

variable {io io' : ConnIo ConnId} {n : Nat}

theorem Life.agrees (h : io.Life n) (hn : n ≠ 5) : io.Agrees := by
  match n, h with
  | 1, h => exact Fresh.agrees h
  | 2, h => exact h.1.agrees
  | 3, h => exact h.1.agrees
  | 4, h => exact h.1.agrees
  | 5, _ => exact absurd rfl hn

theorem Life.pos (h : io.Life n) : 1 ≤ n := by
  match n, h with
  | n + 1, _ => exact Nat.le_add_left 1 n

theorem Life.le (h : io.Life n) : n ≤ 5 := by
  match n, h with
  | 1, _ | 2, _ | 3, _ | 4, _ | 5, _ => decide

/-- Only at the second stage is the channel registered. -/
theorem Life.eq_two_of_added (h : io.Life n) (hadded : io.conn.channel_.index_ = .kAdded) :
    n = 2 := by
  match n, h with
  | 1, h => exact absurd (hadded.symm.trans (Fresh.index h)) (by decide)
  | 2, _ => rfl
  | 3, h | 4, h => exact absurd hadded h.1.not_added
  | 5, h => exact absurd (hadded.symm.trans h.1) (by decide)

/-- Of the poller, a stage says only that the channel agrees with it. -/
theorem Life.congr (h : io.Life n) (hptr : io'.ptr = io.ptr) (hconn : io'.conn = io.conn)
    (hagrees : n ≠ 5 → io'.Agrees) : io'.Life n := by
  obtain ⟨ptr, conn, poller, queue, trace⟩ := io'
  obtain rfl : ptr = io.ptr := hptr
  obtain rfl : conn = io.conn := hconn
  match n, h with
  | 1, h =>
    exact ⟨hagrees (by decide), h.index, h.events, h.state, h.empty, h.outputWF, h.inputWF⟩
  | 2, h =>
    exact ⟨⟨hagrees (by decide), h.1.added, h.1.events, h.1.outputWF, h.1.inputWF⟩, h.2⟩
  | 3, h => exact ⟨⟨hagrees (by decide), h.1.not_added, h.1.events, h.1.inputWF⟩, h.2⟩
  | 4, h => exact ⟨⟨hagrees (by decide), h.1.not_added, h.1.events, h.1.inputWF⟩, h.2⟩
  | 5, h => exact h

/-- Nor does a stage say anything of `revents_`. -/
theorem Life.setRevents (h : io.Life n) (revents : EventMask) : (io.setRevents revents).Life n := by
  match n, h with
  | 1, h =>
    obtain ⟨hagrees, hindex, hevents, hstate, hempty, hout, hin⟩ : io.Fresh := h
    exact ⟨⟨hagrees.interest_eq, hagrees.channels_eq⟩, hindex, hevents, hstate, hempty, hout, hin⟩
  | 2, h => exact ⟨h.1.setRevents revents, h.2⟩
  | 3, h =>
    exact ⟨⟨⟨h.1.agrees.interest_eq, h.1.agrees.channels_eq⟩, h.1.not_added, h.1.events,
      h.1.inputWF⟩, h.2⟩
  | 4, h =>
    exact ⟨⟨⟨h.1.agrees.interest_eq, h.1.agrees.channels_eq⟩, h.1.not_added, h.1.events,
      h.1.inputWF⟩, h.2⟩
  | 5, h => exact h

/-! ## §3 Calls between two stages -/

/-- A call that queued plain functors and touched nothing of another connection. -/
structure Touches (io io' : ConnIo ConnId) : Prop where
  ptr : io'.ptr = io.ptr
  fd : io'.conn.channel_.fd_ = io.conn.channel_.fd_
  others : io.poller.SameExcept io'.poller io.conn.channel_.fd_
  queue : ∃ fs : List ConnFunctor, io'.queue = io.queue ++ fs.map (io.ptr, ·) ∧
    ∀ f ∈ fs, f.isPlain = true

/-- The same of a call that did not tie the channel. -/
def Keeps (io io' : ConnIo ConnId) : Prop :=
  ∃ fs es, Extends io io' fs es ∧ ∀ f ∈ fs, f.isPlain = true

theorem Keeps.touches (h : Keeps io io') : Touches io io' := by
  obtain ⟨fs, es, hext, hplain⟩ := h
  exact ⟨hext.ptr, hext.fd, hext.others, fs, hext.queue, hplain⟩

theorem Keeps.revents (h : Keeps io io') :
    io'.conn.channel_.revents_ = io.conn.channel_.revents_ := by
  obtain ⟨fs, es, hext, -⟩ := h
  exact hext.revents

theorem Keeps.refl (io : ConnIo ConnId) : Keeps io io := ⟨[], [], Extends.refl io, by simp⟩

theorem Keeps.trans {io'' : ConnIo ConnId} (h₁ : Keeps io io') (h₂ : Keeps io' io'') :
    Keeps io io'' := by
  obtain ⟨fs₁, es₁, hext₁, hplain₁⟩ := h₁
  obtain ⟨fs₂, es₂, hext₂, hplain₂⟩ := h₂
  refine ⟨_, _, hext₁.trans hext₂, ?_⟩
  intro f hf
  exact (List.mem_append.mp hf).elim (hplain₁ f) (hplain₂ f)

theorem Keeps.of_user {fs : List ConnFunctor} {es : List ConnEvent} (h : Extends io io' fs es)
    (huser : ∀ f ∈ fs, f.isUser = true) : Keeps io io' :=
  ⟨fs, es, h, fun f hf => ConnFunctor.isPlain_of_isUser (huser f hf)⟩

theorem Keeps.record (io : ConnIo ConnId) (e : ConnEvent) : Keeps io (io.record e) :=
  ⟨[], [e], Extends.record io e, by simp⟩

/-- The call kept the connection at its stage. -/
structure KeepsLife (n : Nat) (io io' : ConnIo ConnId) : Prop where
  keeps : Keeps io io'
  life : io'.Life n
  /-- After the last stage the fd may be another connection's. -/
  poller : n = 5 → io'.poller = io.poller

theorem Life.keepsLife (h : io.Life n) : KeepsLife n io io := ⟨.refl io, h, fun _ => rfl⟩

/-- A call that changed neither the members nor the poller. -/
theorem Life.keepsLife_of_eq (h : io.Life n) (hkeeps : Keeps io io') (hconn : io'.conn = io.conn)
    (hpoller : io'.poller = io.poller) : KeepsLife n io io' := by
  refine ⟨hkeeps, ?_, fun _ => hpoller⟩
  have hptr := hkeeps.touches.ptr
  apply h.congr hptr hconn
  intro hn
  rw [Agrees, hptr, hconn, hpoller]
  exact h.agrees hn

/-- The file goes on being sent at any stage: a closed connection is not noticed. -/
theorem sendFileInLoop_keepsLife (h : io.Life n) (file : List Byte) (fileDescriptor : Int)
    (offset count : Nat) (w : WriteResult) :
    KeepsLife n io (io.sendFileInLoop file fileDescriptor offset count w) := by
  -- the continuation is a plain functor: it is no step in the life of the connection
  have hfile : ∀ (io : ConnIo ConnId) (offset count : Nat),
      Keeps io (io.queueInLoop (.sendFileInLoop fileDescriptor offset count)) :=
    fun io offset count => ⟨_, _, Extends.queueInLoop io _, by simp [ConnFunctor.isPlain]⟩
  unfold sendFileInLoop
  split
  · exact h.keepsLife
  split
  · cases w with
    | accepted m =>
      have hrecord := Keeps.record io (.sendfile (((file.drop offset).take count).take m))
      obtain ⟨fs, hqueue⟩ := (io.record
        (.sendfile (((file.drop offset).take count).take m))).queueWriteComplete_spec
      by_cases hall : count - m = 0
      · -- the range is out
        have hmore : ¬count - m > 0 := by omega
        simp only [if_pos hall, if_neg hmore]
        exact h.keepsLife_of_eq (hrecord.trans (.of_user hqueue.ext hqueue.user)) hqueue.conn
          hqueue.poller
      · have hmore : count - m > 0 := by omega
        simp only [if_neg hall, if_pos hmore]
        exact h.keepsLife_of_eq (hrecord.trans (hfile _ _ _)) rfl rfl
    | error errno =>
      have hrecord := Keeps.record io (.sendfile [])
      dsimp only
      split
      · exact h.keepsLife_of_eq (hrecord.trans (hfile _ _ _)) rfl rfl
      · exact h.keepsLife_of_eq hrecord rfl rfl
  · split
    · exact h.keepsLife_of_eq (hfile _ _ _) rfl rfl
    · exact h.keepsLife

/-- `send` sends only at the second stage. -/
theorem send_keepsLife (h : io.Life n) (msg : List Byte) (w : WriteResult) :
    ∃ io', io.send msg w = some io' ∧ KeepsLife n io io' := by
  unfold send
  split
  · rename_i hconnected
    match n, h with
    | 1, h => exact absurd (h.state.symm.trans hconnected) (by decide)
    | 2, h =>
      obtain ⟨io', fs, es, hsend, hext, huser, -, hopen, hstate, -⟩ := sendInLoop_spec h.1 msg w
      exact ⟨io', hsend, .of_user hext huser, ⟨hopen, hstate ▸ h.2⟩, by simp⟩
    | 3, h | 4, h | 5, h => exact absurd (h.2.symm.trans hconnected) (by decide)
  · exact ⟨io, rfl, h.keepsLife⟩

theorem shutdownInLoop_keepsLife (h : io.Life n) : KeepsLife n io io.shutdownInLoop := by
  unfold shutdownInLoop
  split
  · exact h.keepsLife_of_eq (Keeps.record io _) rfl rfl
  · exact h.keepsLife

/-- `shutdown` disconnects only at the second stage. -/
theorem shutdown_keepsLife (h : io.Life n) : KeepsLife n io io.shutdown := by
  unfold shutdown
  split
  · rename_i hconnected
    match n, h with
    | 1, h => exact absurd (h.state.symm.trans hconnected) (by decide)
    | 2, h =>
      have hset : (io.setState .kDisconnecting).Life 2 := ⟨h.1.setState _, .inr rfl⟩
      have hshut := shutdownInLoop_keepsLife hset
      have hkeeps : Keeps io (io.setState .kDisconnecting) := ⟨[], [], .setState io _, by simp⟩
      exact ⟨hkeeps.trans hshut.keeps, hshut.life, by simp⟩
    | 3, h | 4, h | 5, h => exact absurd (h.2.symm.trans hconnected) (by decide)
  · exact h.keepsLife

end ConnIo

open ConnIo in
/-- **What a user calls keeps the stage.** -/
theorem TcpServer.UserCall.apply_spec {io : ConnIo ConnId} {n : Nat} (h : io.Life n)
    (call : TcpServer.UserCall) : ∃ io', call.apply io = some io' ∧ KeepsLife n io io' := by
  cases call with
  | send msg w => exact send_keepsLife h msg w
  | shutdown => exact ⟨_, rfl, shutdown_keepsLife h⟩
  | sendFile file fileDescriptor offset count w =>
    refine ⟨_, rfl, ?_⟩
    unfold ConnIo.sendFile
    split
    · exact sendFileInLoop_keepsLife h file fileDescriptor offset count w
    · exact h.keepsLife
  | setHighWaterMarkCallback highWaterMark =>
    refine ⟨_, rfl, ⟨[], [], ?_, by simp⟩, ?_, fun _ => rfl⟩
    · exact ⟨rfl, rfl, rfl, rfl, ⟨fun _ _ => rfl, fun _ _ => rfl⟩, by simp, by simp⟩
    · match n, h with
      | 1, h =>
        obtain ⟨hagrees, hindex, hevents, hstate, hempty, hout, hin⟩ : io.Fresh := h
        exact ⟨hagrees, hindex, hevents, hstate, hempty, hout, hin⟩
      | 2, h => exact ⟨⟨h.1.agrees, h.1.added, h.1.events, h.1.outputWF, h.1.inputWF⟩, h.2⟩
      | 3, h | 4, h => exact ⟨⟨h.1.agrees, h.1.not_added, h.1.events, h.1.inputWF⟩, h.2⟩
      | 5, h => exact h

/-! ## §4 Dispatches -/

/-- Callbacks that neither read nor close. -/
def Quiet (ops : List HandlerOp) : Prop := ∀ op ∈ ops, op = .handleError ∨ op = .handleWrite

/-- Callbacks that do not close, with at most one read. -/
def Reads (ops : List HandlerOp) : Prop :=
  Quiet ops ∨ ∃ before after, ops = before ++ .handleRead :: after ∧ Quiet before ∧ Quiet after

/-- The callbacks that a dispatch may still make on a connection at a stage. -/
def TodoOk (todo : List HandlerOp) : Nat → Prop
  | 2 => Reads todo ∨ ∃ rest, todo = .handleClose :: .closeCallback :: rest ∧ Quiet rest
  | 3 => Quiet todo ∨ ∃ rest, todo = .closeCallback :: rest ∧ Quiet rest
  | 4 => Quiet todo
  | _ => False

theorem Quiet.append {ops₁ ops₂ : List HandlerOp} (h₁ : Quiet ops₁) (h₂ : Quiet ops₂) :
    Quiet (ops₁ ++ ops₂) :=
  fun op hop => (List.mem_append.mp hop).elim (h₁ op) (h₂ op)

theorem Quiet.tail {op : HandlerOp} {ops : List HandlerOp} (h : Quiet (op :: ops)) : Quiet ops :=
  fun op' hop' => h op' (List.mem_cons_of_mem op hop')

theorem quiet_ite (b : Bool) {op : HandlerOp} (h : op = .handleError ∨ op = .handleWrite) :
    Quiet (if b then [op] else []) := by
  intro op' hop'
  cases b with
  | true => exact List.mem_singleton.mp hop' ▸ h
  | false => exact absurd hop' List.not_mem_nil

/-- What comes first in a dispatch that may read: the read itself, or something quiet. -/
theorem Reads.cons_cases {op : HandlerOp} {ops : List HandlerOp} (h : Reads (op :: ops)) :
    (op = .handleRead ∧ Quiet ops) ∨ ((op = .handleError ∨ op = .handleWrite) ∧ Reads ops) := by
  rcases h with hquiet | ⟨before, after, heq, hbefore, hafter⟩
  · exact .inr ⟨hquiet op List.mem_cons_self, .inl hquiet.tail⟩
  · cases before with
    | nil =>
      obtain ⟨rfl, rfl⟩ := List.cons.inj heq
      exact .inl ⟨rfl, hafter⟩
    | cons op' before =>
      obtain ⟨rfl, rfl⟩ := List.cons.inj heq
      exact .inr ⟨hbefore op List.mem_cons_self, .inr ⟨before, after, rfl, hbefore.tail, hafter⟩⟩

theorem has_or (mask bits₁ bits₂ : EventMask) (h₁ : mask.has bits₁ = false)
    (h₂ : mask.has bits₂ = false) : mask.has (bits₁ ||| bits₂) = false := by
  simp only [EventMask.has, ne_eq, decide_not, Bool.not_eq_false', decide_eq_true_eq] at h₁ h₂ ⊢
  rw [BitVec.and_or_distrib_left, h₁, h₂]
  rfl

/-- **A dispatch that closes does not read**, because the kernel does not report such a mask. -/
theorem handleEventWithGuard_todoOk {revents : EventMask}
    (h : TcpServer.reportable revents = true) : TodoOk (handleEventWithGuard revents) 2 := by
  have herror := quiet_ite (revents.has EPOLLERR) (.inl rfl : HandlerOp.handleError = _ ∨ _)
  have hwrite := quiet_ite (revents.has EPOLLOUT) (.inr rfl : _ ∨ HandlerOp.handleWrite = _)
  unfold handleEventWithGuard
  cases hclose : revents.has EPOLLHUP && !revents.has EPOLLIN with
  | true =>
    -- neither `EPOLLIN` nor `EPOLLPRI`
    have hin : revents.has EPOLLIN = false := by
      rw [Bool.and_eq_true, Bool.not_eq_true'] at hclose
      exact hclose.2
    have hpri : revents.has EPOLLPRI = false := by
      rw [Bool.and_eq_true] at hclose
      rw [TcpServer.reportable, hclose.1, hin] at h
      simpa using h
    rw [has_or revents EPOLLIN EPOLLPRI hin hpri]
    refine .inr ⟨_, ?_, herror.append hwrite⟩
    simp
  | false =>
    left
    cases hread : revents.has (EPOLLIN ||| EPOLLPRI) with
    | true =>
      refine .inr ⟨_, _, ?_, herror, hwrite⟩
      simp
    | false => exact .inl (by simpa using herror.append hwrite)

namespace ConnIo

/-- `handleRead` of an open connection: the end of the stream makes it close, nothing else does. -/
theorem handleRead_life {io : ConnIo ConnId} (h : io.Life 2) (r : ReadResult)
    {rest : List HandlerOp} (hrest : Quiet rest) :
    ∃ io' ops, io.handleRead r = some (io', ops) ∧ KeepsLife 2 io io' ∧
      TodoOk (ops ++ rest) 2 := by
  cases r with
  | error =>
    have herror : Quiet ([.handleError] ++ rest) :=
      Quiet.append (quiet_ite true (.inl rfl)) hrest
    exact ⟨io, _, rfl, h.keepsLife, .inl (.inl herror)⟩
  | bytes data =>
    by_cases hpos : data.length > 0
    · obtain ⟨buffer, hbuffer, hwf, -⟩ := Buffer.readFd_spec h.1.inputWF data
      have hkeeps : Keeps io ((io.setInputBuffer buffer).record .messageCallback) :=
        ⟨_, _, (Extends.setInputBuffer io buffer).trans (.record _ _), by simp⟩
      have hopen : Open ((io.setInputBuffer buffer).record .messageCallback) :=
        ⟨h.1.agrees, h.1.added, h.1.events, h.1.outputWF, hwf⟩
      refine ⟨_, [], ?_, ⟨hkeeps, ⟨hopen, h.2⟩, by simp⟩, .inl (.inl hrest)⟩
      simp only [handleRead, if_pos hpos, hbuffer, Option.bind_eq_bind, Option.bind_some]
    · exact ⟨io, _, if_neg hpos, h.keepsLife, .inr ⟨rest, rfl, hrest⟩⟩

/-- `handleWrite` of a connection that is open or closed. -/
theorem handleWrite_life {io : ConnIo ConnId} {n : Nat} (h : io.Life n) (hn : 2 ≤ n ∧ n ≤ 4)
    (w : WriteResult) : ∃ io', io.handleWrite w = some io' ∧ KeepsLife n io io' := by
  match n, h with
  | 1, _ | 5, _ => omega
  | 2, h =>
    obtain ⟨io', fs, es, hwrite, hdrain⟩ := handleWrite_spec h.1 w
    exact ⟨io', hwrite, .of_user hdrain.ext hdrain.user, ⟨hdrain.isOpen, hdrain.state ▸ h.2⟩,
      by simp⟩
  | 3, h | 4, h => exact ⟨io, handleWrite_of_closed h.1 w, Life.keepsLife h⟩

/-- **The callbacks of a dispatch that do not close keep the stage.** -/
theorem runHandler_quiet {io : ConnIo ConnId} {n : Nat} (h : io.Life n) (hn : 2 ≤ n ∧ n ≤ 4)
    (r : ReadResult) (w : WriteResult) {op : HandlerOp}
    (hop : op = .handleError ∨ op = .handleWrite) :
    ∃ io', io.runHandler r w op = some (io', []) ∧ KeepsLife n io io' := by
  rcases hop with rfl | rfl
  · exact ⟨io, rfl, h.keepsLife⟩
  · obtain ⟨io', hwrite, hkeeps⟩ := handleWrite_life h hn w
    exact ⟨io', by rw [runHandler, hwrite]; rfl, hkeeps⟩

end ConnIo

/-! ## §5 The invariant -/

/-- The dispatch is about to call `closeCallback_`. -/
def closing : Option (List HandlerOp) → Bool
  | some (.closeCallback :: _) => true
  | _ => false

/-- The functors in the queue of loop `l` that take a connection of `ioLoop` to its next stage. -/
def nextFunctor {L : Type} [DecidableEq L] (loop ioLoop l : L) (todo : Option (List HandlerOp)) :
    Nat → List ConnFunctor
  | 1 => if l = ioLoop then [.connectEstablished] else []
  | 3 => if l = loop ∧ closing todo = false then [.removeConnectionInLoop] else []
  | 4 => if l = ioLoop then [.connectDestroyed] else []
  | _ => []

namespace TcpServer

variable {L : Type} [DecidableEq L]

/-- The calls for a connection are the beginning of its `lifecycle`, and events come after it
    was established. -/
structure InLifecycle (cfg : ServerConfig L) (s : TcpServer L) (c : ConnId) : Prop where
  lifeCalls : s.lifeCalls c = (lifecycle cfg.loop_ (s.conns c).loop_).take (s.stage c)
  events : ∀ l, AtEach (l, ServerCall.handleEvent) (fun before _ => l = (s.conns c).loop_ ∧
    ((s.conns c).loop_, .connectEstablished) ∈ before) (s.callsOf c)

/-- What holds of one connection. -/
structure ConnInv (cfg : ServerConfig L) (s : TcpServer L) (c : ConnId) : Prop
    extends InLifecycle cfg s c where
  life : (s.view c).Life (s.stage c)
  queued : ∀ l, s.lifeQueued l c =
    nextFunctor cfg.loop_ (s.conns c).loop_ l (s.todoOf c) (s.stage c)
  todo : ∀ todo, s.todoOf c = some todo → TodoOk todo (s.stage c)
  active : c ∈ s.active (s.conns c).loop_ →
    s.stage c = 2 ∧ s.todoOf c = none ∧ reportable (s.conns c).conn.channel_.revents_ = true

/-- The invariant of a server: what holds of each connection, and how the poller's entries, the
    queues, the dispatches and the map belong to the connections. -/
structure ServerInv (cfg : ServerConfig L) (s : TcpServer L) : Prop where
  conns : ∀ c, c < s.accepted → ConnInv cfg s c
  name : ∀ c, c < s.accepted → (s.conns c).name_ =
    connName cfg.name_ cfg.ipPort_.toIpPort (BitVec.ofNat 32 (c + 1))
  nextConnId : s.nextConnId_ = BitVec.ofNat 32 (s.accepted + 1)
  bound : s.accepted < 2 ^ 31
  distinct : ∀ c c', c < s.accepted → c' < s.accepted → s.stage c ≠ 5 → s.stage c' ≠ 5 →
    (s.conns c).conn.channel_.fd_ = (s.conns c').conn.channel_.fd_ → c = c'
  owned : ∀ l fd, (∀ c, c < s.accepted → s.stage c ≠ 5 → (s.conns c).loop_ = l →
      (s.conns c).conn.channel_.fd_ ≠ fd) →
    (s.loops l).poller.interest fd = none ∧ (s.loops l).poller.channels_ fd = none
  queued : ∀ l, ∀ p ∈ s.queued l, p.1 < s.accepted ∧ p.2.bindsShared = true
  active_nodup : ∀ l, (s.active l).Nodup
  active : ∀ l, ∀ c ∈ s.active l, c < s.accepted ∧ (s.conns c).loop_ = l
  dispatch : ∀ l, ∀ d ∈ s.dispatch l, d.conn < s.accepted ∧ (s.conns d.conn).loop_ = l
  map : ∀ name c, (name, c) ∈ s.connections_ ↔
    c < s.accepted ∧ s.stage c ≤ 3 ∧ name = (s.conns c).name_
  keys : (s.connections_.map Prod.fst).Nodup
  calls : ∀ e ∈ s.calls, e.2.1 < s.accepted

/-! ## §6 Steps on one connection -/

variable {cfg : ServerConfig L} {s s' s'' : TcpServer L} {c : ConnId}

/-- What `ConnInv` reads is the same in both states. -/
structure SameFor (c : ConnId) (s s' : TcpServer L) : Prop where
  conn : s'.conns c = s.conns c
  agrees : s.stage c ≠ 5 → (s.view c).Agrees → (s'.view c).Agrees
  queued : ∀ l, s'.lifeQueued l c = s.lifeQueued l c
  todo : s'.todoOf c = s.todoOf c
  active : c ∈ s'.active (s.conns c).loop_ → c ∈ s.active (s.conns c).loop_
  calls : s'.callsOf c = s.callsOf c

omit [DecidableEq L] in
theorem SameFor.stage (h : SameFor c s s') : s'.stage c = s.stage c := by
  rw [TcpServer.stage, TcpServer.lifeCalls, h.calls]
  rfl

theorem ConnInv.congr (h : ConnInv cfg s c) (hsame : SameFor c s s') : ConnInv cfg s' c where
  lifeCalls := by
    rw [hsame.stage, hsame.conn, TcpServer.lifeCalls, hsame.calls]
    exact h.lifeCalls
  events := by
    rw [hsame.conn, hsame.calls]
    exact h.events
  life := by
    rw [hsame.stage]
    have hconn : (s'.view c).conn = (s.view c).conn := congrArg ServerConn.conn hsame.conn
    exact ConnIo.Life.congr h.life rfl hconn (fun hn => hsame.agrees hn (h.life.agrees hn))
  queued := by
    intro l
    rw [hsame.stage, hsame.conn, hsame.queued, hsame.todo]
    exact h.queued l
  todo := by
    intro todo htodo
    rw [hsame.stage]
    exact h.todo todo (hsame.todo ▸ htodo)
  active := by
    rw [hsame.conn, hsame.stage, hsame.todo]
    exact fun hactive => h.active (hsame.active hactive)

/-- A step on connection `c` of loop `io` with fd `fd` changes nothing that concerns another
    connection. -/
structure Frame (c : ConnId) (io : L) (fd : Int) (s s' : TcpServer L) : Prop where
  conns : ∀ c', c' ≠ c → s'.conns c' = s.conns c'
  pollers : ∀ l, l ≠ io → (s'.loops l).poller = (s.loops l).poller
  poller : (s.loops io).poller.SameExcept (s'.loops io).poller fd
  lifeQueued : ∀ l c', c' ≠ c → s'.lifeQueued l c' = s.lifeQueued l c'
  queued : ∀ l, ∀ p ∈ s'.queued l, p ∈ s.queued l ∨ (p.1 = c ∧ p.2.bindsShared = true)
  active : ∀ l, (s'.active l).Sublist (s.active l)
  dispatch : ∀ l, ∀ d ∈ s'.dispatch l,
    (∃ d' ∈ s.dispatch l, d'.conn = d.conn) ∨ (d.conn = c ∧ l = io)
  todo : ∀ c', c' ≠ c → s'.todoOf c' = s.todoOf c'
  calls : ∀ c', c' ≠ c → s'.callsOf c' = s.callsOf c'
  mem_calls : ∀ e ∈ s'.calls, e ∈ s.calls ∨ e.2.1 = c
  map : ∀ name c', c' ≠ c → ((name, c') ∈ s'.connections_ ↔ (name, c') ∈ s.connections_)
  keys : (s.connections_.map Prod.fst).Nodup → (s'.connections_.map Prod.fst).Nodup

omit [DecidableEq L] in
theorem Frame.refl (c : ConnId) (io : L) (fd : Int) (s : TcpServer L) : Frame c io fd s s where
  conns _ _ := rfl
  pollers _ _ := rfl
  poller := ⟨fun _ _ => rfl, fun _ _ => rfl⟩
  lifeQueued _ _ _ := rfl
  queued _ _ hp := .inl hp
  active _ := List.Sublist.refl _
  dispatch _ d hd := .inl ⟨d, hd, rfl⟩
  todo _ _ := rfl
  calls _ _ := rfl
  mem_calls _ he := .inl he
  map _ _ _ := Iff.rfl
  keys h := h

omit [DecidableEq L] in
theorem Frame.trans {io : L} {fd : Int} (h₁ : Frame c io fd s s') (h₂ : Frame c io fd s' s'') :
    Frame c io fd s s'' where
  conns c' hc := (h₂.conns c' hc).trans (h₁.conns c' hc)
  pollers l hl := (h₂.pollers l hl).trans (h₁.pollers l hl)
  poller := h₁.poller.trans h₂.poller
  lifeQueued l c' hc := (h₂.lifeQueued l c' hc).trans (h₁.lifeQueued l c' hc)
  queued l p hp := (h₂.queued l p hp).elim (h₁.queued l p) .inr
  active l := (h₂.active l).trans (h₁.active l)
  dispatch l d hd := by
    rcases h₂.dispatch l d hd with ⟨d', hd', hconn⟩ | hnew
    · rw [← hconn]
      exact h₁.dispatch l d' hd'
    · exact .inr hnew
  todo c' hc := (h₂.todo c' hc).trans (h₁.todo c' hc)
  calls c' hc := (h₂.calls c' hc).trans (h₁.calls c' hc)
  mem_calls e he := (h₂.mem_calls e he).elim (h₁.mem_calls e) .inr
  map name c' hc := (h₂.map name c' hc).trans (h₁.map name c' hc)
  keys h := h₂.keys (h₁.keys h)

/-- The entries of an fd are the same in two pollers. -/
def SameEntries (p q : EPollPoller ConnId) (fd : Int) : Prop :=
  q.interest fd = p.interest fd ∧ q.channels_ fd = p.channels_ fd

omit [DecidableEq L] in
theorem Frame.sameEntries {io : L} {fd : Int} (h : Frame c io fd s s') {l : L} {fd' : Int}
    (hne : l = io → fd' ≠ fd) : SameEntries (s.loops l).poller (s'.loops l).poller fd' := by
  by_cases hl : l = io
  · subst hl
    exact ⟨h.poller.interest fd' (hne rfl), h.poller.channels fd' (hne rfl)⟩
  · rw [h.pollers l hl]
    exact ⟨rfl, rfl⟩

omit [DecidableEq L] in
/-- Another connection sees no difference, if the poller's entries of its fd are the same. -/
theorem Frame.sameFor {io : L} {fd : Int} (h : Frame c io fd s s') {c' : ConnId} (hc : c' ≠ c)
    (hentries : s.stage c' ≠ 5 → SameEntries (s.loops (s.conns c').loop_).poller
      (s'.loops (s.conns c').loop_).poller (s.conns c').conn.channel_.fd_) : SameFor c' s s' where
  conn := h.conns c' hc
  agrees := by
    intro hn hagrees
    obtain ⟨hinterest, hchannels⟩ := hentries hn
    simp only [ConnIo.Agrees, view, h.conns c' hc]
    exact ⟨hinterest.trans hagrees.interest_eq, hchannels.trans hagrees.channels_eq⟩
  queued l := h.lifeQueued l c' hc
  todo := h.todo c' hc
  active hmem := (h.active _).subset hmem
  calls := h.calls c' hc

/-- The fd of `c` is its own while it is registered; afterwards the poller is left alone. -/
def OwnsFd (c : ConnId) (s s' : TcpServer L) : Prop :=
  (s.stage c ≠ 5 ∧ ∀ c', c' < s.accepted → c' ≠ c → s.stage c' ≠ 5 →
    (s.conns c').conn.channel_.fd_ ≠ (s'.conns c).conn.channel_.fd_) ∨
  (s.stage c = 5 ∧ s'.stage c = 5 ∧ ∀ l, (s'.loops l).poller = (s.loops l).poller)

omit [DecidableEq L] in
/-- Any other connection that is registered finds its entries as they were. -/
theorem Frame.others {io : L} {fd : Int} (h : Frame c io fd s s')
    (hfd : (s'.conns c).conn.channel_.fd_ = fd) (hown : OwnsFd c s s') {c' : ConnId}
    (hc' : c' < s.accepted) (hne : c' ≠ c) : SameFor c' s s' := by
  apply h.sameFor hne
  intro hn
  rcases hown with ⟨-, hothers⟩ | ⟨-, -, hsame⟩
  · apply h.sameEntries
    intro _
    rw [← hfd]
    exact hothers c' hc' hne hn
  · rw [hsame]
    exact ⟨rfl, rfl⟩

omit [DecidableEq L] in
/-- Any other connection after the step was there before it. -/
theorem Frame.accepted_others {io : L} {fd : Int} (h : Frame c io fd s s')
    (hfd : (s'.conns c).conn.channel_.fd_ = fd) (hown : OwnsFd c s s')
    (haccepted : ∀ c', c' < s'.accepted ↔ c' < s.accepted ∨ c' = c) {c' : ConnId}
    (hc' : c' < s'.accepted) (hne : c' ≠ c) : c' < s.accepted ∧ SameFor c' s s' := by
  have hc'' := ((haccepted c').mp hc').resolve_right hne
  exact ⟨hc'', h.others hfd hown hc'' hne⟩

/-- While `c` is registered, no other registered connection has its fd. -/
theorem ServerInv.distinct_of_frame {io : L} (h : ServerInv cfg s)
    (hf : Frame c io (s'.conns c).conn.channel_.fd_ s s') (hown : OwnsFd c s s')
    (haccepted : ∀ c', c' < s'.accepted ↔ c' < s.accepted ∨ c' = c) {c₁ c₂ : ConnId}
    (hc₁ : c₁ < s'.accepted) (hc₂ : c₂ < s'.accepted) (hn₁ : s'.stage c₁ ≠ 5)
    (hn₂ : s'.stage c₂ ≠ 5)
    (hfd : (s'.conns c₁).conn.channel_.fd_ = (s'.conns c₂).conn.channel_.fd_) : c₁ = c₂ := by
  have hsame : ∀ {c'}, c' < s'.accepted → c' ≠ c → c' < s.accepted ∧ SameFor c' s s' :=
    fun hc' hne => hf.accepted_others rfl hown haccepted hc' hne
  have hfresh : ∀ c', c' < s'.accepted → c' ≠ c → s'.stage c ≠ 5 → s'.stage c' ≠ 5 →
      (s'.conns c').conn.channel_.fd_ ≠ (s'.conns c).conn.channel_.fd_ := by
    intro c' hc' hne hn hn'
    obtain ⟨hc'', hsame⟩ := hsame hc' hne
    rcases hown with ⟨-, hothers⟩ | ⟨-, hdestroyed, -⟩
    · rw [hsame.conn]
      exact hothers c' hc'' hne (hsame.stage ▸ hn')
    · exact absurd hdestroyed hn
  by_cases hne₁ : c₁ = c <;> by_cases hne₂ : c₂ = c
  · rw [hne₁, hne₂]
  · subst hne₁
    exact absurd hfd.symm (hfresh c₂ hc₂ hne₂ hn₁ hn₂)
  · subst hne₂
    exact absurd hfd (hfresh c₁ hc₁ hne₁ hn₂ hn₁)
  · obtain ⟨hc₁', hsame₁⟩ := hsame hc₁ hne₁
    obtain ⟨hc₂', hsame₂⟩ := hsame hc₂ hne₂
    rw [hsame₁.conn, hsame₂.conn] at hfd
    exact h.distinct c₁ c₂ hc₁' hc₂' (hsame₁.stage ▸ hn₁) (hsame₂.stage ▸ hn₂) hfd

/-- An fd that no registered connection of a loop has is not known to the loop's poller. -/
theorem ServerInv.owned_of_frame {io : L} (h : ServerInv cfg s)
    (hf : Frame c io (s'.conns c).conn.channel_.fd_ s s') (hio : (s'.conns c).loop_ = io)
    (hold : c < s.accepted → (s.conns c).loop_ = io ∧
      (s.conns c).conn.channel_.fd_ = (s'.conns c).conn.channel_.fd_)
    (hown : OwnsFd c s s')
    (hgone : s'.stage c = 5 → s.stage c ≠ 5 →
      (s'.loops io).poller.interest (s'.conns c).conn.channel_.fd_ = none ∧
        (s'.loops io).poller.channels_ (s'.conns c).conn.channel_.fd_ = none)
    (haccepted : ∀ c', c' < s'.accepted ↔ c' < s.accepted ∨ c' = c) {l : L} {fd : Int}
    (hfree : ∀ c', c' < s'.accepted → s'.stage c' ≠ 5 → (s'.conns c').loop_ = l →
      (s'.conns c').conn.channel_.fd_ ≠ fd) :
    (s'.loops l).poller.interest fd = none ∧ (s'.loops l).poller.channels_ fd = none := by
  have hfree' : ∀ c', c' < s.accepted → c' ≠ c → s.stage c' ≠ 5 → (s.conns c').loop_ = l →
      (s.conns c').conn.channel_.fd_ ≠ fd := by
    intro c' hc' hne hn hl
    have hsame' := hf.others rfl hown hc' hne
    have hfd := hfree c' ((haccepted _).mpr (.inl hc')) (hsame'.stage.trans_ne hn)
    rw [hsame'.conn] at hfd
    exact hfd hl
  rcases hown with ⟨hn, -⟩ | ⟨hn, -, hpollers⟩
  · by_cases hhere : l = io ∧ fd = (s'.conns c).conn.channel_.fd_
    · -- the fd was the connection's, so the connection is gone
      obtain ⟨rfl, rfl⟩ := hhere
      apply hgone ?_ hn
      by_contra hn'
      exact hfree c ((haccepted c).mpr (.inr rfl)) hn' hio rfl
    · have hentries : SameEntries (s.loops l).poller (s'.loops l).poller fd :=
        hf.sameEntries (fun hl hfd => hhere ⟨hl, hfd⟩)
      rw [hentries.1, hentries.2]
      apply h.owned
      intro c' hc' hn' hl
      by_cases hne : c' = c
      · subst hne
        obtain ⟨hl', hfd'⟩ := hold hc'
        rw [hfd']
        exact fun hfd => hhere ⟨hl.symm.trans hl', hfd.symm⟩
      · exact hfree' c' hc' hne hn' hl
  · rw [hpollers]
    apply h.owned
    intro c' hc' hn' hl
    exact hfree' c' hc' (fun heq => hn' (heq ▸ hn)) hn' hl

/-- The map has the connections that are not removed, under their names. -/
theorem ServerInv.map_of_frame {io : L} (h : ServerInv cfg s)
    (hf : Frame c io (s'.conns c).conn.channel_.fd_ s s') (hown : OwnsFd c s s')
    (haccepted : ∀ c', c' < s'.accepted ↔ c' < s.accepted ∨ c' = c)
    (hmap : ∀ name, (name, c) ∈ s'.connections_ ↔ s'.stage c ≤ 3 ∧ name = (s'.conns c).name_)
    (name : String) (c' : ConnId) :
    (name, c') ∈ s'.connections_ ↔
      c' < s'.accepted ∧ s'.stage c' ≤ 3 ∧ name = (s'.conns c').name_ := by
  by_cases hne : c' = c
  · subst hne
    rw [hmap]
    exact ⟨fun hm => ⟨(haccepted c').mpr (.inr rfl), hm⟩, fun hm => hm.2⟩
  · rw [hf.map name c' hne, h.map]
    constructor
    · rintro ⟨hc', hstage, rfl⟩
      have hsame' := hf.others rfl hown hc' hne
      refine ⟨(haccepted c').mpr (.inl hc'), hsame'.stage.trans_le hstage, ?_⟩
      rw [hsame'.conn]
    · rintro ⟨hc', hstage, rfl⟩
      obtain ⟨hc'', hsame'⟩ := hf.accepted_others rfl hown haccepted hc' hne
      refine ⟨hc'', hsame'.stage.symm.trans_le hstage, ?_⟩
      rw [hsame'.conn]

/-- **A step on one connection is no concern of the others**: the invariant holds again when
    it holds of the connection itself. The connection may be one that the step made. -/
theorem ServerInv.of_frame {io : L} (h : ServerInv cfg s)
    (hf : Frame c io (s'.conns c).conn.channel_.fd_ s s') (hio : (s'.conns c).loop_ = io)
    (hold : c < s.accepted → (s.conns c).loop_ = io ∧
      (s.conns c).conn.channel_.fd_ = (s'.conns c).conn.channel_.fd_)
    (hown : OwnsFd c s s')
    (hgone : s'.stage c = 5 → s.stage c ≠ 5 →
      (s'.loops io).poller.interest (s'.conns c).conn.channel_.fd_ = none ∧
        (s'.loops io).poller.channels_ (s'.conns c).conn.channel_.fd_ = none)
    (haccepted : ∀ c', c' < s'.accepted ↔ c' < s.accepted ∨ c' = c)
    (hnext : s'.nextConnId_ = BitVec.ofNat 32 (s'.accepted + 1)) (hbound : s'.accepted < 2 ^ 31)
    (hconn : ConnInv cfg s' c)
    (hname : (s'.conns c).name_ = connName cfg.name_ cfg.ipPort_.toIpPort (BitVec.ofNat 32 (c + 1)))
    (hmap : ∀ name, (name, c) ∈ s'.connections_ ↔ s'.stage c ≤ 3 ∧ name = (s'.conns c).name_) :
    ServerInv cfg s' := by
  have hc : c < s'.accepted := (haccepted c).mpr (.inr rfl)
  have hlt : ∀ {c'}, c' < s.accepted → c' < s'.accepted := fun h => (haccepted _).mpr (.inl h)
  have hsame : ∀ {c'}, c' < s'.accepted → c' ≠ c → c' < s.accepted ∧ SameFor c' s s' :=
    fun hc' hne => hf.accepted_others rfl hown haccepted hc' hne
  have hloop : ∀ {c' l}, c' < s.accepted → (s.conns c').loop_ = l → (s'.conns c').loop_ = l := by
    intro c' l hc' hl
    by_cases hne : c' = c
    · subst hne
      exact hio.trans ((hold hc').1.symm.trans hl)
    · rw [hf.conns c' hne, hl]
  refine ⟨?_, ?_, hnext, hbound, ?_, ?_, ?_, ?_, ?_, ?_, ?_, hf.keys h.keys, ?_⟩
  · -- conns
    intro c' hc'
    by_cases hne : c' = c
    · exact hne ▸ hconn
    · obtain ⟨hc'', hsame⟩ := hsame hc' hne
      exact (h.conns c' hc'').congr hsame
  · -- name
    intro c' hc'
    by_cases hne : c' = c
    · exact hne ▸ hname
    · obtain ⟨hc'', hsame⟩ := hsame hc' hne
      rw [hsame.conn]
      exact h.name c' hc''
  · exact fun c₁ c₂ hc₁ hc₂ => h.distinct_of_frame hf hown haccepted hc₁ hc₂
  · exact fun l fd => h.owned_of_frame hf hio hold hown hgone haccepted
  · -- queued
    intro l p hp
    rcases hf.queued l p hp with hp | ⟨heq, hshared⟩
    · exact ⟨hlt (h.queued l p hp).1, (h.queued l p hp).2⟩
    · exact ⟨heq ▸ hc, hshared⟩
  · exact fun l => (h.active_nodup l).sublist (hf.active l)
  · -- active
    intro l c' hmem
    obtain ⟨hc', hl⟩ := h.active l c' ((hf.active l).subset hmem)
    exact ⟨hlt hc', hloop hc' hl⟩
  · -- dispatch
    intro l d hd
    rcases hf.dispatch l d hd with ⟨d', hd', heq⟩ | ⟨heq, rfl⟩
    · obtain ⟨hc', hl⟩ := h.dispatch l d' hd'
      rw [heq] at hc' hl
      exact ⟨hlt hc', hloop hc' hl⟩
    · exact ⟨heq ▸ hc, heq ▸ hio⟩
  · exact fun name c' => h.map_of_frame hf hown haccepted hmap name c'
  · -- calls
    intro e he
    rcases hf.mem_calls e he with he | heq
    · exact hlt (h.calls e he)
    · exact heq ▸ hc

end TcpServer

end RainWebServer.Net
