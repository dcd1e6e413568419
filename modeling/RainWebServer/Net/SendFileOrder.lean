import RainWebServer.Net.SendOrder

/-!
# Files among the Messages of a Connection

Runs of one connection on its loop's thread, made of `send`, `sendFile`, `shutdown`,
`EPOLLOUT` events and the functors of its queue.

What remains of a message waits in the output buffer; what remains of a file waits as a
`sendFileInLoop` functor in the queue of the loop. Neither knows of the other, so a message
sent while a file waits overtakes it, and a shutdown makes the file give up.

## Main results

- `sendFileRun_along_in_order` : in a run that never sends or shuts down while a file waits,
  the bytes go out in call order and the socket is shut down after the last one
- `send_overtakes_file` : a run in which a message overtakes a file
-/

namespace RainWebServer.Net

open RainWebServer.Lib

/-! ## §1 What remains of a file -/

/-- The bytes of a file range. -/
def fileRange (file : List Byte) (offset count : Nat) : List Byte :=
  (file.drop offset).take count

/-- The functor is a continuation of `sendFileInLoop`. -/
def ConnFunctor.isFile : ConnFunctor → Bool
  | .sendFileInLoop _ _ _ => true
  | _ => false

/-- The bytes that a queued functor still has to send. -/
def ConnFunctor.fileBytes (files : Int → List Byte) : ConnFunctor → List Byte
  | .sendFileInLoop fileDescriptor offset count => fileRange (files fileDescriptor) offset count
  | _ => []

/-- The bytes that the queued functors still have to send, in queue order. -/
def queuedFileBytes (files : Int → List Byte) (queue : List ConnFunctor) : List Byte :=
  queue.flatMap (ConnFunctor.fileBytes files)

/-- No continuation of `sendFileInLoop` is queued. -/
def noFileQueued (queue : List ConnFunctor) : Bool := queue.all (fun f => !f.isFile)

variable {files : Int → List Byte}

theorem drop_fileRange (file : List Byte) (offset count n : Nat) :
    (fileRange file offset count).drop n = fileRange file (offset + n) (count - n) := by
  simp only [fileRange, List.drop_take, List.drop_drop]

theorem fileBytes_of_not_file {f : ConnFunctor} (h : f.isFile = false) :
    f.fileBytes files = [] := by
  cases f <;> first | rfl | cases h

theorem isFile_of_isUser {f : ConnFunctor} (h : f.isUser = true) : f.isFile = false := by
  cases f <;> first | rfl | cases h

/-- Only continuations carry bytes. -/
theorem queuedFileBytes_eq_nil {queue : List ConnFunctor} (h : noFileQueued queue = true) :
    queuedFileBytes files queue = [] := by
  induction queue with
  | nil => rfl
  | cons f queue ih =>
    simp only [noFileQueued, List.all_cons, Bool.and_eq_true, Bool.not_eq_true'] at h
    simp only [queuedFileBytes, List.flatMap_cons, fileBytes_of_not_file h.1, List.nil_append]
    exact ih h.2

theorem noFileQueued_of_isUser {queue : List ConnFunctor} (h : ∀ f ∈ queue, f.isUser = true) :
    noFileQueued queue = true := by
  simp only [noFileQueued, List.all_eq_true, Bool.not_eq_true']
  exact fun f hf => isFile_of_isUser (h f hf)

/-- What a call of `sendFileInLoop` leaves behind: it queued nothing that carries bytes, or
    one continuation last. -/
inductive FileRest (files : Int → List Byte) : List ConnFunctor → List Byte → Prop where
  | done {fs : List ConnFunctor} : noFileQueued fs = true → FileRest files fs []
  | more (fileDescriptor : Int) (offset count : Nat) :
      FileRest files [.sendFileInLoop fileDescriptor offset count]
        (fileRange (files fileDescriptor) offset count)

theorem FileRest.bytes {fs : List ConnFunctor} {rest : List Byte} (h : FileRest files fs rest) :
    queuedFileBytes files fs = rest := by
  cases h with
  | done hnone => exact queuedFileBytes_eq_nil hnone
  | more fileDescriptor offset count => simp [queuedFileBytes, ConnFunctor.fileBytes]

theorem countP_isFile_of_noFile {queue : List ConnFunctor} (h : noFileQueued queue = true) :
    queue.countP ConnFunctor.isFile = 0 := by
  apply List.countP_eq_zero.mpr
  simp only [noFileQueued, List.all_eq_true, Bool.not_eq_true'] at h
  intro f hf
  simp [h f hf]

theorem noFile_of_countP_eq_zero {queue : List ConnFunctor}
    (h : queue.countP ConnFunctor.isFile = 0) : noFileQueued queue = true := by
  have hall := List.countP_eq_zero.mp h
  simp only [noFileQueued, List.all_eq_true, Bool.not_eq_true']
  exact fun f hf => Bool.eq_false_iff.mpr (hall f hf)

theorem FileRest.countP_le {fs : List ConnFunctor} {rest : List Byte}
    (h : FileRest files fs rest) : fs.countP ConnFunctor.isFile ≤ 1 := by
  cases h with
  | done hnone => exact (countP_isFile_of_noFile hnone).trans_le (Nat.zero_le 1)
  | more fileDescriptor offset count => exact le_refl 1

namespace ConnIo

variable {Ch : Type}

/-- What `sendFileInLoop` does to an open connection that is not disconnecting: what the
    socket accepted, what waits in the buffer and what waits in the queue are what waited in
    the buffer followed by the file range. -/
structure SentFile (files : Int → List Byte) (c c' : ConnIo Ch) (fileDescriptor : Int)
    (offset count : Nat) (fs : List ConnFunctor) (es : List ConnEvent) (rest : List Byte) :
    Prop where
  ext : Extends c c' fs es
  isOpen : Open c'
  conn : c'.conn = c.conn
  no_shutdown : .shutdownWrite ∉ es
  fileRest : FileRest files fs rest
  of_zero : count = 0 → noFileQueued fs = true
  bytes : acceptedBytes es ++ c.conn.outputBuffer_.readable ++ rest =
    c.conn.outputBuffer_.readable ++ fileRange (files fileDescriptor) offset count

/-- The range is queued again as it is, after an attempt that had no effect or none at all. -/
theorem SentFile.requeue {c : ConnIo Ch} (h : Open c) (fileDescriptor : Int) (offset : Nat)
    {count : Nat} (hpos : count > 0) :
    SentFile files c (c.queueInLoop (.sendFileInLoop fileDescriptor offset count))
      fileDescriptor offset count [.sendFileInLoop fileDescriptor offset count] []
      (fileRange (files fileDescriptor) offset count) where
  ext := Extends.queueInLoop c _
  isOpen := h.queueInLoop _
  conn := rfl
  no_shutdown := List.not_mem_nil
  fileRest := .more fileDescriptor offset count
  of_zero := fun hzero => absurd hzero (Nat.pos_iff_ne_zero.mp hpos)
  bytes := rfl

/-- Nothing is left to be done for an empty range. -/
theorem SentFile.nothing {c : ConnIo Ch} (h : Open c) (fileDescriptor : Int) (offset : Nat)
    {count : Nat} (hzero : ¬count > 0) :
    SentFile files c c fileDescriptor offset count [] [] [] where
  ext := Extends.refl c
  isOpen := h
  conn := rfl
  no_shutdown := List.not_mem_nil
  fileRest := .done rfl
  of_zero := fun _ => rfl
  bytes := by
    have hcount : count = 0 := by omega
    simp [hcount, fileRange, acceptedBytes]

/-- An attempt that sent nothing comes before what `SentFile` says. -/
theorem SentFile.after_record {c c' : ConnIo Ch} {fileDescriptor : Int} {offset count : Nat}
    {fs : List ConnFunctor} {es : List ConnEvent} {rest : List Byte}
    (h : SentFile files (c.record (.sendfile [])) c' fileDescriptor offset count fs es rest) :
    SentFile files c c' fileDescriptor offset count fs (.sendfile [] :: es) rest where
  ext := (Extends.record c _).trans h.ext
  isOpen := h.isOpen
  conn := h.conn
  no_shutdown := by simpa using h.no_shutdown
  fileRest := h.fileRest
  of_zero := h.of_zero
  bytes := h.bytes

variable (files) in
/-- **`sendFileInLoop` on an open connection.** -/
theorem sendFileInLoop_spec {c : ConnIo Ch} (h : Open c)
    (hstate : c.conn.state_ ≠ .kDisconnecting) (fileDescriptor : Int) (offset count : Nat)
    {w : WriteResult} (hw : w.isFault = false) :
    ∃ fs es rest, SentFile files c
      (c.sendFileInLoop (files fileDescriptor) fileDescriptor offset count w)
      fileDescriptor offset count fs es rest := by
  unfold sendFileInLoop
  rw [if_neg hstate]
  by_cases hidle : c.idle = true
  · rw [if_pos hidle]
    have hempty := h.idle_iff.mp hidle
    cases w with
    | accepted n =>
      have hrecord := Extends.record c
        (.sendfile ((fileRange (files fileDescriptor) offset count).take n))
      have hopen := h.record (.sendfile ((fileRange (files fileDescriptor) offset count).take n))
      by_cases hall : count - n = 0
      · -- the whole range is out
        obtain ⟨fs, hqueue⟩ := (c.record (.sendfile
          ((fileRange (files fileDescriptor) offset count).take n))).queueWriteComplete_spec
        simp only [gt_iff_lt, hall, Nat.lt_irrefl, if_false]
        refine ⟨_, _, [], hrecord.trans hqueue.ext, hqueue.isOpen hopen, hqueue.conn, by simp,
          .done (noFileQueued_of_isUser hqueue.user),
          fun _ => noFileQueued_of_isUser hqueue.user, ?_⟩
        have hlength : (fileRange (files fileDescriptor) offset count).length ≤ n := by
          simp only [fileRange, List.length_take]
          omega
        simp [hempty, acceptedBytes, List.take_of_length_le hlength]
      · -- the rest of the range is queued as a continuation
        have hmore : count - n > 0 := by omega
        simp only [if_neg hall, if_pos hmore]
        refine ⟨_, _, fileRange (files fileDescriptor) (offset + n) (count - n),
          hrecord.trans (Extends.queueInLoop _ _), hopen.queueInLoop _, rfl, by simp,
          .more fileDescriptor _ _, fun hzero => absurd hmore (by omega), ?_⟩
        rw [hempty, ← drop_fileRange]
        simp [acceptedBytes]
    | error errno =>
      -- an error that is no fault sends nothing, and the whole range is tried again
      have hfault : errno.isFault = false := hw
      simp only [hfault, Bool.not_false, Bool.true_and, decide_eq_true_eq]
      by_cases hpos : count > 0
      · rw [if_pos hpos]
        exact ⟨_, _, _, (SentFile.requeue (h.record _) fileDescriptor offset hpos).after_record⟩
      · rw [if_neg hpos]
        exact ⟨_, _, _, (SentFile.nothing (h.record _) fileDescriptor offset hpos).after_record⟩
  · -- bytes wait in the buffer, so the file waits in the queue
    rw [if_neg hidle]
    by_cases hpos : count > 0
    · rw [if_pos hpos]
      exact ⟨_, _, _, SentFile.requeue h fileDescriptor offset hpos⟩
    · rw [if_neg hpos]
      exact ⟨_, _, _, SentFile.nothing h fileDescriptor offset hpos⟩

/-- The part of the range that left the queue, and the part that is still in it. -/
theorem SentFile.split {c c' : ConnIo Ch} {fileDescriptor : Int} {offset count : Nat}
    {fs : List ConnFunctor} {es : List ConnEvent} {rest : List Byte}
    (h : SentFile files c c' fileDescriptor offset count fs es rest) :
    ∃ data, acceptedBytes es ++ c.conn.outputBuffer_.readable =
        c.conn.outputBuffer_.readable ++ data ∧
      data ++ rest = fileRange (files fileDescriptor) offset count := by
  rcases List.append_eq_append_iff.mp h.bytes with ⟨mid, hbuffer, hrest⟩ | ⟨data, hsent, hrange⟩
  · -- the left side is at least as long as the buffer, so nothing lies between
    have hlength := congrArg List.length hbuffer
    simp only [List.length_append] at hlength
    have hmid : mid = [] := List.length_eq_zero_iff.mp (by omega)
    subst hmid
    exact ⟨[], by simpa using hbuffer.symm, by simpa using hrest⟩
  · exact ⟨data, hsent, hrange.symm⟩

variable (files) in
/-- `sendFileInLoop` on a `kConnected` connection: a part of the range joins the stream and
    the rest is queued. -/
theorem InOrder.sendFileInLoop {c : ConnIo Ch} {stream : List Byte} (h : InOrder c stream)
    (hconn : c.conn.state_ = .kConnected) (fileDescriptor : Int) (offset count : Nat)
    {w : WriteResult} (hw : w.isFault = false) :
    ∃ (stream' : List Byte) (fs : List ConnFunctor),
      InOrder (c.sendFileInLoop (files fileDescriptor) fileDescriptor offset count w) stream' ∧
      (c.sendFileInLoop (files fileDescriptor) fileDescriptor offset count w).conn.state_ =
        .kConnected ∧
      (c.sendFileInLoop (files fileDescriptor) fileDescriptor offset count w).queue =
        c.queue ++ fs.map (c.ptr, ·) ∧
      stream' ++ queuedFileBytes files fs =
        stream ++ fileRange (files fileDescriptor) offset count ∧
      fs.countP ConnFunctor.isFile ≤ 1 ∧ (count = 0 → noFileQueued fs = true) := by
  have hstate : c.conn.state_ ≠ .kDisconnecting := by simp [hconn]
  obtain ⟨fs, es, rest, hsent⟩ := sendFileInLoop_spec files h.isOpen hstate fileDescriptor
    offset count hw
  obtain ⟨data, hdata, hrange⟩ := hsent.split
  refine ⟨stream ++ data, fs, ?_, ?_, hsent.ext.queue, ?_, hsent.fileRest.countP_le, hsent.of_zero⟩
  · apply h.grow hconn hsent.isOpen _ hsent.ext.trace hsent.no_shutdown _
    · rw [hsent.conn]
    · rw [hsent.conn]
      exact hdata
  · rw [hsent.conn, hconn]
  · rw [hsent.fileRest.bytes, List.append_assoc, hrange]

/-- The connection with another queue; what the stream has come to does not depend on it. -/
def setQueue (c : ConnIo Ch) (queue : List (Ch × ConnFunctor)) : ConnIo Ch :=
  { c with queue := queue }

theorem InOrder.setQueue {c : ConnIo Ch} {stream : List Byte} (h : InOrder c stream)
    (queue : List (Ch × ConnFunctor)) : InOrder (c.setQueue queue) stream :=
  ⟨⟨h.isOpen.agrees, h.isOpen.added, h.isOpen.events, h.isOpen.outputWF, h.isOpen.inputWF⟩,
    h.state, h.bytes, ⟨h.shut.once, h.shut.after, h.shut.done⟩⟩

end ConnIo

/-! ## §2 Runs with files -/

/-- A connection, and the messages and file ranges that it was given while `kConnected`. -/
structure FileRun where
  io : ConnIo Unit
  sent : List (List Byte)

/-- What happens on the loop's thread. -/
inductive FileAct where
  | connectEstablished
  | send (msg : List Byte) (w : WriteResult)
  | sendFile (fileDescriptor : Int) (offset count : Nat) (w : WriteResult)
  | shutdown
  | writable (w : WriteResult)
  /-- The first functor of the queue runs. -/
  | functor (w : WriteResult)

/-- The functors in the queue of the loop. -/
def FileRun.functors (s : FileRun) : List ConnFunctor := s.io.queue.map Prod.snd

/-- The files are long enough, and no `::write` or `::sendfile` meets a fault error. -/
def FileRun.enabled (files : Int → List Byte) (s : FileRun) : FileAct → Bool
  | .connectEstablished => s.io.conn.state_ = .kConnecting
  | .send _ w | .writable w => s.io.conn.state_ ≠ .kConnecting && !w.isFault
  | .sendFile fileDescriptor offset count w => s.io.conn.state_ ≠ .kConnecting && !w.isFault &&
    offset + count ≤ (files fileDescriptor).length
  | .shutdown => s.io.conn.state_ ≠ .kConnecting
  | .functor w => !s.io.queue.isEmpty && !w.isFault

/-- Run the functor `f`, which has been taken from the queue. A user callback does what the
    later actions say. -/
def FileRun.runFunctor (files : Int → List Byte) (io : ConnIo Unit) (w : WriteResult) :
    ConnFunctor → ConnIo Unit
  | .sendFileInLoop fileDescriptor offset count =>
    io.sendFileInLoop (files fileDescriptor) fileDescriptor offset count w
  | _ => io

/-- The effect of an action. -/
def FileRun.step (files : Int → List Byte) (s : FileRun) : FileAct → Option FileRun
  | .connectEstablished => s.io.connectEstablished.map fun io => { s with io := io }
  | .send msg w => (s.io.send msg w).map fun io =>
    ⟨io, if s.io.conn.state_ = .kConnected then s.sent ++ [msg] else s.sent⟩
  | .sendFile fileDescriptor offset count w =>
    some ⟨s.io.sendFile (files fileDescriptor) fileDescriptor offset count w,
      if s.io.conn.state_ = .kConnected then
        s.sent ++ [fileRange (files fileDescriptor) offset count]
      else s.sent⟩
  | .shutdown => some { s with io := s.io.shutdown }
  | .writable w => (s.io.handleWrite w).map fun io => { s with io := io }
  | .functor w =>
    match s.io.queue with
    | [] => some s
    | (_, f) :: queue => some { s with io := FileRun.runFunctor files (s.io.setQueue queue) w f }

/-- Runs of one connection that sends messages and files. -/
def sendFileMachine (files : Int → List Byte) : Machine FileRun FileAct :=
  ⟨FileRun.enabled files, FileRun.step files⟩

/-- While a file waits, a `kConnected` connection is given nothing more to send and is not
    shut down. -/
def FileRun.quiet (s : FileRun) : FileAct → Bool
  | .send msg _ => s.io.conn.state_ ≠ .kConnected || msg.isEmpty || noFileQueued s.functors
  | .sendFile _ _ count _ =>
    s.io.conn.state_ ≠ .kConnected || count = 0 || noFileQueued s.functors
  | .shutdown => s.io.conn.state_ ≠ .kConnected || noFileQueued s.functors
  | _ => true

/-! ## §3 The invariant -/

/-- At most one functor of the queue is a continuation. -/
def OneFile (queue : List ConnFunctor) : Prop := queue.countP ConnFunctor.isFile ≤ 1

/-- An established connection in a run with files: what has left the queue is in order, and
    what is in it comes next. -/
structure FileOk (files : Int → List Byte) (s : FileRun) : Prop where
  front : ∃ stream, s.io.InOrder stream ∧
    stream ++ queuedFileBytes files s.functors = s.sent.flatten
  one : OneFile s.functors
  disconnecting : s.io.conn.state_ = .kDisconnecting → noFileQueued s.functors = true

/-- A call that queued only user callbacks. -/
theorem FileOk.of_user {s : FileRun} {io' : ConnIo Unit} {fs : List ConnFunctor}
    {stream : List Byte} {sent : List (List Byte)} (h : FileOk files s)
    (huser : ∀ f ∈ fs, f.isUser = true) (hqueue : io'.queue = s.io.queue ++ fs.map (s.io.ptr, ·))
    (horder : io'.InOrder stream)
    (hdisc : io'.conn.state_ = .kDisconnecting → noFileQueued s.functors = true)
    (hsent : stream ++ queuedFileBytes files s.functors = sent.flatten) :
    FileOk files ⟨io', sent⟩ := by
  have hfunctors : FileRun.functors ⟨io', sent⟩ = s.functors ++ fs := by
    simp [FileRun.functors, hqueue, Function.comp_def]
  have hnone := noFileQueued_of_isUser huser
  refine ⟨⟨stream, horder, ?_⟩, ?_, ?_⟩
  · rw [hfunctors, queuedFileBytes, List.flatMap_append]
    have hnil : fs.flatMap (ConnFunctor.fileBytes files) = [] := queuedFileBytes_eq_nil hnone
    rw [hnil, List.append_nil]
    exact hsent
  · rw [OneFile, hfunctors, List.countP_append, countP_isFile_of_noFile hnone]
    exact h.one
  · intro hstate
    rw [hfunctors, noFileQueued, List.all_append, Bool.and_eq_true]
    exact ⟨hdisc hstate, hnone⟩

/-- `send` while no file waits, or of an empty message. -/
theorem FileOk.send {s : FileRun} (h : FileOk files s) {msg : List Byte} {w : WriteResult}
    (hw : w.isFault = false) (hquiet : s.quiet (.send msg w) = true) :
    ∃ t, s.step files (.send msg w) = some t ∧ FileOk files t := by
  by_cases hconn : s.io.conn.state_ = .kConnected
  · obtain ⟨stream, horder, hsent⟩ := h.front
    obtain ⟨io', fs, hsend, huser, hqueue, hstate, horder'⟩ := horder.send hconn msg hw
    refine ⟨⟨io', s.sent ++ [msg]⟩, ?_, ?_⟩
    · simp only [FileRun.step, hsend, if_pos hconn, Option.map_some]
    · apply h.of_user huser hqueue horder'
      · intro hdisc
        rw [hstate, hconn] at hdisc
        cases hdisc
      · simp only [FileRun.quiet, hconn, ne_eq, not_true_eq_false, decide_false, Bool.false_or,
          Bool.or_eq_true, List.isEmpty_iff] at hquiet
        rw [List.flatten_append, ← hsent]
        rcases hquiet with rfl | hnone
        · simp
        · simp [queuedFileBytes_eq_nil hnone]
  · refine ⟨s, ?_, h⟩
    simp only [FileRun.step, ConnIo.send, if_neg hconn, Option.map_some]

/-- `sendFileInLoop` while no file waits, or of an empty range. -/
theorem FileOk.sendFileInLoop {io : ConnIo Unit} {stream : List Byte} {sent : List (List Byte)}
    (horder : io.InOrder stream) (hconn : io.conn.state_ = .kConnected) (fileDescriptor : Int)
    (offset count : Nat) {w : WriteResult} (hw : w.isFault = false)
    (hone : OneFile (io.queue.map Prod.snd))
    (hquiet : count = 0 ∨ noFileQueued (io.queue.map Prod.snd) = true)
    (hsent : stream ++ queuedFileBytes files (io.queue.map Prod.snd) ++
      fileRange (files fileDescriptor) offset count = sent.flatten) :
    FileOk files
      ⟨io.sendFileInLoop (files fileDescriptor) fileDescriptor offset count w, sent⟩ := by
  obtain ⟨stream', fs, horder', hstate, hqueue, hbytes, hcount, hzero⟩ :=
    horder.sendFileInLoop files hconn fileDescriptor offset count hw
  have hfunctors : FileRun.functors
      ⟨io.sendFileInLoop (files fileDescriptor) fileDescriptor offset count w, sent⟩ =
      io.queue.map Prod.snd ++ fs := by
    simp [FileRun.functors, hqueue, Function.comp_def]
  -- a continuation goes to the end of the queue
  have hqueued : queuedFileBytes files (io.queue.map Prod.snd ++ fs) =
      queuedFileBytes files (io.queue.map Prod.snd) ++ queuedFileBytes files fs :=
    List.flatMap_append
  refine ⟨⟨stream', horder', ?_⟩, ?_, ?_⟩
  · rw [hfunctors, hqueued, ← hsent]
    rcases hquiet with hcount0 | hnone
    · -- an empty range queues nothing and adds nothing
      have hnil : queuedFileBytes files fs = [] := queuedFileBytes_eq_nil (hzero hcount0)
      rw [hnil, hcount0] at hbytes
      simp only [fileRange, List.take_zero, List.append_nil] at hbytes
      rw [hnil, hbytes, hcount0]
      simp [fileRange]
    · rw [queuedFileBytes_eq_nil hnone, List.nil_append, List.append_nil]
      exact hbytes
  · rw [OneFile, hfunctors, List.countP_append]
    rcases hquiet with hcount0 | hnone
    · rw [countP_isFile_of_noFile (hzero hcount0)]
      exact hone
    · rw [countP_isFile_of_noFile hnone, Nat.zero_add]
      exact hcount
  · intro hdisc
    rw [hstate] at hdisc
    cases hdisc

/-- `sendFile` while no file waits, or of an empty range. -/
theorem FileOk.sendFile {s : FileRun} (h : FileOk files s) {fileDescriptor : Int}
    {offset count : Nat} {w : WriteResult} (hw : w.isFault = false)
    (hquiet : s.quiet (.sendFile fileDescriptor offset count w) = true) :
    ∃ t, s.step files (.sendFile fileDescriptor offset count w) = some t ∧ FileOk files t := by
  refine ⟨_, rfl, ?_⟩
  by_cases hconn : s.io.conn.state_ = .kConnected
  · obtain ⟨stream, horder, hsent⟩ := h.front
    simp only [ConnIo.sendFile, ConnIo.connected, hconn, decide_true, if_true]
    simp only [FileRun.quiet, hconn, ne_eq, not_true_eq_false, decide_false, Bool.false_or,
      Bool.or_eq_true, decide_eq_true_eq] at hquiet
    apply FileOk.sendFileInLoop horder hconn fileDescriptor offset count hw h.one hquiet
    rw [List.flatten_append, ← hsent]
    simp [FileRun.functors]
  · simp only [ConnIo.sendFile, ConnIo.connected, hconn, decide_false]
    exact h

/-- `shutdown` while no file waits. -/
theorem FileOk.shutdown {s : FileRun} (h : FileOk files s) (hquiet : s.quiet .shutdown = true) :
    FileOk files { s with io := s.io.shutdown } := by
  obtain ⟨stream, horder, hsent⟩ := h.front
  have hqueue : s.io.shutdown.queue = s.io.queue := by
    unfold ConnIo.shutdown ConnIo.shutdownInLoop
    split
    · split <;> rfl
    · rfl
  have hfunctors : FileRun.functors { s with io := s.io.shutdown } = s.functors := by
    simp only [FileRun.functors, hqueue]
  refine ⟨⟨stream, horder.shutdown, by rw [hfunctors]; exact hsent⟩, hfunctors ▸ h.one, ?_⟩
  intro hdisc
  rw [hfunctors]
  by_cases hconn : s.io.conn.state_ = .kConnected
  · simpa [FileRun.quiet, hconn] using hquiet
  · apply h.disconnecting
    simpa [ConnIo.shutdown, hconn] using hdisc

/-- `EPOLLOUT` takes from the buffer and leaves the queued file alone. -/
theorem FileOk.writable {s : FileRun} (h : FileOk files s) (w : WriteResult) :
    ∃ t, s.step files (.writable w) = some t ∧ FileOk files t := by
  obtain ⟨stream, horder, hsent⟩ := h.front
  obtain ⟨io', fs, hwrite, huser, hqueue, hstate, horder'⟩ := horder.handleWrite w
  refine ⟨⟨io', s.sent⟩, by simp only [FileRun.step, hwrite, Option.map_some], ?_⟩
  apply h.of_user huser hqueue horder' _ hsent
  intro hdisc
  exact h.disconnecting (hstate ▸ hdisc)

/-- The first functor of the queue runs. -/
theorem FileOk.functor {s : FileRun} (h : FileOk files s) {w : WriteResult}
    (hw : w.isFault = false) : ∃ t, s.step files (.functor w) = some t ∧ FileOk files t := by
  obtain ⟨stream, horder, hsent⟩ := h.front
  simp only [FileRun.step]
  cases hqueue : s.io.queue with
  | nil => exact ⟨s, rfl, h⟩
  | cons head queue =>
    obtain ⟨ptr, f⟩ := head
    refine ⟨_, rfl, ?_⟩
    have horder' := horder.setQueue queue
    have hfunctors : s.functors = f :: queue.map Prod.snd := by
      simp [FileRun.functors, hqueue]
    have hone := h.one
    rw [OneFile, hfunctors, List.countP_cons] at hone
    rw [hfunctors] at hsent
    by_cases hfile : f.isFile = true
    · -- the continuation: it was the only one, so the queue behind it carries nothing
      have hnone : noFileQueued (queue.map Prod.snd) = true := by
        rw [if_pos hfile] at hone
        exact noFile_of_countP_eq_zero (by omega)
      -- a connection that shuts down has no file in its queue
      have hconn : s.io.conn.state_ = .kConnected := by
        refine horder.state.resolve_right ?_
        intro hdisc
        have hall := h.disconnecting hdisc
        rw [hfunctors, noFileQueued, List.all_cons, hfile] at hall
        cases hall
      cases f with
      | sendFileInLoop fileDescriptor offset count =>
        have hrest : OneFile (queue.map Prod.snd) := Nat.le_of_add_right_le hone
        apply FileOk.sendFileInLoop horder' hconn fileDescriptor offset count hw hrest (.inr hnone)
        show stream ++ queuedFileBytes files (queue.map Prod.snd) ++ _ = _
        rw [queuedFileBytes_eq_nil hnone, ← hsent]
        have hnil : (queue.map Prod.snd).flatMap (ConnFunctor.fileBytes files) = [] :=
          queuedFileBytes_eq_nil hnone
        simp [queuedFileBytes, ConnFunctor.fileBytes, hnil]
      | _ => cases hfile
    · -- a user callback
      rw [Bool.not_eq_true] at hfile
      have hrun : FileRun.runFunctor files (s.io.setQueue queue) w f = s.io.setQueue queue := by
        cases f <;> first | rfl | cases hfile
      rw [hrun]
      refine ⟨⟨stream, horder', ?_⟩, Nat.le_of_add_right_le hone, ?_⟩
      · rw [← hsent]
        simp only [queuedFileBytes, List.flatMap_cons, fileBytes_of_not_file hfile,
          List.nil_append]
        rfl
      · intro hdisc
        have hall := h.disconnecting hdisc
        rw [hfunctors, noFileQueued, List.all_cons, Bool.and_eq_true] at hall
        exact hall.2

/-! ## §4 Runs that are quiet while a file waits -/

/-- The invariant: not yet established, or established and in order. -/
def FileInv (files : Int → List Byte) (sockfd : Int) (user : UserCallbacks) (s : FileRun) : Prop :=
  s = ⟨.fresh sockfd user, []⟩ ∨ FileOk files s

/-- Every quiet step keeps the invariant. -/
theorem fileInv_step {sockfd : Int} {user : UserCallbacks} {s t : FileRun} {a : FileAct}
    (h : FileInv files sockfd user s) (he : s.enabled files a = true) (hquiet : s.quiet a = true)
    (hstep : s.step files a = some t) : FileInv files sockfd user t := by
  rcases h with rfl | h
  · -- only `connectEstablished` can be taken first
    cases a with
    | connectEstablished =>
      obtain ⟨io, hest, hstate, hqueue, -, horder⟩ :=
        ConnIo.connectEstablished_fresh sockfd user
      simp only [FileRun.step, hest, Option.map_some, Option.some.injEq] at hstep
      subst hstep
      refine .inr ⟨⟨[], horder, ?_⟩, ?_, ?_⟩
      · simp [FileRun.functors, hqueue, queuedFileBytes]
      · simp [FileRun.functors, hqueue, OneFile]
      · simp [FileRun.functors, hqueue, noFileQueued]
    | _ => exact absurd he (by simp [FileRun.enabled, ConnIo.fresh, TcpConnection.new])
  · have hresult : ∃ u, s.step files a = some u ∧ FileOk files u := by
      cases a with
      | connectEstablished =>
        obtain ⟨stream, horder, -⟩ := h.front
        exact absurd (by simpa [FileRun.enabled] using he) horder.not_connecting
      | send msg w =>
        simp only [FileRun.enabled, Bool.and_eq_true, Bool.not_eq_true'] at he
        exact h.send he.2 hquiet
      | sendFile fileDescriptor offset count w =>
        simp only [FileRun.enabled, Bool.and_eq_true, Bool.not_eq_true'] at he
        exact h.sendFile he.1.2 hquiet
      | shutdown => exact ⟨_, rfl, h.shutdown hquiet⟩
      | writable w => exact h.writable w
      | functor w =>
        simp only [FileRun.enabled, Bool.and_eq_true, Bool.not_eq_true'] at he
        exact h.functor he.2
    obtain ⟨u, hu, hok⟩ := hresult
    rw [hstep, Option.some.injEq] at hu
    exact .inr (hu ▸ hok)

/-- The bytes accepted are a prefix of what was sent, and the socket is shut down only when
    all of it was accepted. -/
def FileRun.SentInOrder (s : FileRun) : Prop :=
  acceptedBytes s.io.trace <+: s.sent.flatten ∧
  ∀ before after, s.io.trace = before ++ .shutdownWrite :: after →
    acceptedBytes before = s.sent.flatten

/-- **Files and messages go out in order when nothing is sent while a file waits.** In every
    state reached by a run in which no `send` of a message, `sendFile` or `shutdown` is made
    on the connected connection while a continuation of `sendFileInLoop` is queued. -/
theorem sendFileRun_along_in_order {sockfd : Int} {user : UserCallbacks} {as : List FileAct}
    {s : FileRun}
    (h : (sendFileMachine files).ReachesAlong (fun s a => s.quiet a = true)
      ⟨.fresh sockfd user, []⟩ as s) : s.SentInOrder := by
  have hinv := Machine.invariant_reaches_along (I := FileInv files sockfd user) (.inl rfl)
    (fun t a u ht he hquiet hstep => fileInv_step ht he hquiet hstep) h
  rcases hinv with rfl | hok
  · exact ⟨List.nil_prefix, atEach_of_not_mem List.not_mem_nil⟩
  · obtain ⟨stream, horder, hsent⟩ := hok.front
    refine ⟨?_, ?_⟩
    · rw [← hsent, ← horder.bytes, List.append_assoc]
      exact List.prefix_append _ _
    · intro before after htrace
      -- a shut-down connection is disconnecting, and then no file waits
      have hmem : .shutdownWrite ∈ s.io.trace := by
        rw [htrace]
        simp
      have hnone := hok.disconnecting (horder.shut.done hmem).1
      rw [queuedFileBytes_eq_nil hnone, List.append_nil] at hsent
      rw [← hsent]
      exact horder.shut.after before after htrace

/-- Descriptor 7 is a file of three bytes. -/
def threeByteFile : Int → List Byte := fun fd => if fd = 7 then [1, 2, 3] else []

/-- A message after the file is out, and then a shutdown. -/
def fileThenMessageRun : List FileAct :=
  [.connectEstablished, .sendFile 7 0 3 (.accepted 1), .functor (.error .EWOULDBLOCK),
    .functor (.accepted 2), .send [9] (.accepted 0), .writable (.accepted 1), .shutdown]

theorem fileThenMessageRun_in_order :
    ∃ s, (sendFileMachine threeByteFile).ReachesAlong (fun s a => s.quiet a = true)
        ⟨.fresh 5 ⟨true, false, 0⟩, []⟩ fileThenMessageRun s ∧
      acceptedBytes s.io.trace = [1, 2, 3, 9] ∧ .shutdownWrite ∈ s.io.trace ∧
      s.SentInOrder := by
  have hrun : ((sendFileMachine threeByteFile).runAlong FileRun.quiet
      ⟨.fresh 5 ⟨true, false, 0⟩, []⟩ fileThenMessageRun).map
      (fun s => (acceptedBytes s.io.trace, s.io.trace.contains .shutdownWrite)) =
      some ([1, 2, 3, 9], true) := by decide +kernel
  obtain ⟨s, hs, heq⟩ := Option.map_eq_some_iff.mp hrun
  obtain ⟨hbytes, hshut⟩ := Prod.mk.inj heq
  have hreach := Machine.reachesAlong_of_runAlong hs
  exact ⟨s, hreach, hbytes, by simpa using hshut, sendFileRun_along_in_order hreach⟩

/-- A file is cut after its first byte and a message is sent before its continuation runs. -/
def overtakingRun : List FileAct :=
  [.connectEstablished, .sendFile 7 0 3 (.accepted 1), .send [9] (.accepted 1)]

/-- **The message overtakes the file**: the socket has accepted the first byte of the file and
    then the message, which is no prefix of the file followed by the message. -/
theorem send_overtakes_file :
    ∃ s, (sendFileMachine threeByteFile).Reaches ⟨.fresh 5 ⟨false, false, 0⟩, []⟩
        overtakingRun s ∧ s.sent = [[1, 2, 3], [9]] ∧ ¬s.SentInOrder := by
  have hrun : ((sendFileMachine threeByteFile).run ⟨.fresh 5 ⟨false, false, 0⟩, []⟩
      overtakingRun).map (fun s => (acceptedBytes s.io.trace, s.sent)) =
      some ([1, 9], [[1, 2, 3], [9]]) := by decide +kernel
  obtain ⟨s, hs, heq⟩ := Option.map_eq_some_iff.mp hrun
  obtain ⟨hbytes, hsent⟩ := Prod.mk.inj heq
  refine ⟨s, Machine.reaches_of_run hs, hsent, ?_⟩
  rintro ⟨hbefore, -⟩
  rw [hbytes, hsent] at hbefore
  exact absurd hbefore (by decide)

end RainWebServer.Net
