import Mathlib.Order.WellFounded
import RainWebServer.Net.SendFileOrder

/-!
# The Retries of a File Range

`sendFileInLoop` queues itself again while bytes of its range remain. It carries on with what
`::sendfile` has left, and the kernel moves the offset. At the end of the file `::sendfile`
returns 0: nothing is sent, nothing is written down, and the same range is queued again.

A run here is a chain of executions, each of them the functor that the one before has queued.
Between two executions anything may happen on the loop, as long as the connection is connected
and idle when its functor runs.

## Main results

- `SendFileRun.remaining_lt` : within the file, what remains falls at every retry
- `sendFile_finite_iff` : the retries end exactly if the range is within the file
-/

namespace RainWebServer.Net

open RainWebServer.Lib

/-! ## §1 Runs -/

/-- The number of bytes of the requested range that the file has. -/
def bytesLeft (file : List Byte) (offset count : Nat) : Nat := min count (file.length - offset)

/-- What `::sendfile` returns when `left` bytes of the range are left. -/
def SendfileReturns (left n : Nat) : Prop := if left = 0 then n = 0 else 1 ≤ n ∧ n ≤ left

/-- An execution of `sendFileInLoop`: the connection it finds, and its arguments. -/
structure SendFileCall (Ch : Type) where
  io : ConnIo Ch
  offset : Nat
  count : Nat
  /-- What `::sendfile` returns. -/
  sent : Nat

variable {Ch : Type}

/-- The state after the execution. -/
def SendFileCall.result (call : SendFileCall Ch) (file : List Byte) (fileDescriptor : Int) :
    ConnIo Ch :=
  call.io.sendFileInLoop file fileDescriptor call.offset call.count (.accepted call.sent)

/-- A run in which `sendFileInLoop` queues itself again without end: it starts with the call of
    `sendFile`, and each execution queues the next one. -/
structure SendFileRun (file : List Byte) (fileDescriptor : Int) (c : ConnIo Ch)
    (offset count : Nat) (calls : ℕ → SendFileCall Ch) : Prop where
  conn_zero : (calls 0).io = c
  offset_zero : (calls 0).offset = offset
  count_zero : (calls 0).count = count
  connected : ∀ k, (calls k).io.connected = true
  idle : ∀ k, (calls k).io.idle = true
  same : ∀ k, (calls k).io.ptr = c.ptr
  returns : ∀ k, SendfileReturns (bytesLeft file (calls k).offset (calls k).count) (calls k).sent
  requeued : ∀ k, ((calls k).result file fileDescriptor).queue = (calls k).io.queue ++
    [(c.ptr, .sendFileInLoop fileDescriptor (calls (k + 1)).offset (calls (k + 1)).count)]

/-! ## §2 One execution -/

variable {file : List Byte} {fileDescriptor : Int}

theorem ConnIo.state_ne_of_connected {c : ConnIo Ch} (h : c.connected = true) :
    c.conn.state_ ≠ .kDisconnecting := by
  have hconnected : c.conn.state_ = .kConnected := of_decide_eq_true h
  simp [hconnected]

/-- On an idle connection an execution queues itself again exactly if bytes remain, with what
    remains. -/
theorem SendFileCall.result_queue (call : SendFileCall Ch) (file : List Byte)
    (fileDescriptor : Int) (hconn : call.io.connected = true) (hidle : call.io.idle = true) :
    (call.sent < call.count ∧ (call.result file fileDescriptor).queue = call.io.queue ++
      [(call.io.ptr, .sendFileInLoop fileDescriptor (call.offset + call.sent)
        (call.count - call.sent))]) ∨
    call.count ≤ call.sent ∧ ∃ fs : List ConnFunctor, (∀ f ∈ fs, f.isUser = true) ∧
      (call.result file fileDescriptor).queue = call.io.queue ++ fs.map (call.io.ptr, ·) := by
  have hstate := ConnIo.state_ne_of_connected hconn
  unfold SendFileCall.result ConnIo.sendFileInLoop
  rw [if_neg hstate, if_pos hidle]
  rcases Nat.lt_or_ge call.sent call.count with hmore | hall
  · left
    have hrest : call.count - call.sent > 0 := by omega
    simp only [if_neg (Nat.ne_of_gt hrest), if_pos hrest]
    exact ⟨hmore, rfl⟩
  · right
    have hnone : call.count - call.sent = 0 := by omega
    obtain ⟨fs, hqueue⟩ := (call.io.record (.sendfile
      (((file.drop call.offset).take call.count).take call.sent))).queueWriteComplete_spec
    simp only [gt_iff_lt, hnone, Nat.lt_irrefl, if_false, if_true]
    exact ⟨hall, fs, hqueue.user, hqueue.ext.queue⟩

namespace SendFileRun

variable {c : ConnIo Ch} {offset count : Nat} {calls : ℕ → SendFileCall Ch}

/-- An execution hands on what remains. -/
theorem next (h : SendFileRun file fileDescriptor c offset count calls) (k : ℕ) :
    (calls k).sent < (calls k).count ∧
      (calls (k + 1)).offset = (calls k).offset + (calls k).sent ∧
      (calls (k + 1)).count = (calls k).count - (calls k).sent := by
  have hrequeued := h.requeued k
  rcases (calls k).result_queue file fileDescriptor (h.connected k) (h.idle k) with
    ⟨hmore, hqueue⟩ | ⟨-, fs, huser, hqueue⟩
  · rw [hqueue, List.append_cancel_left_eq, List.cons.injEq, Prod.mk.injEq,
      ConnFunctor.sendFileInLoop.injEq] at hrequeued
    obtain ⟨⟨-, -, hoffset, hcount⟩, -⟩ := hrequeued
    exact ⟨hmore, hoffset.symm, hcount.symm⟩
  · -- an execution that is done queues no continuation
    rw [hqueue, List.append_cancel_left_eq] at hrequeued
    obtain ⟨f, hf, heq⟩ := List.mem_map.mp (hrequeued.symm ▸ List.mem_singleton_self _)
    rw [Prod.mk.injEq] at heq
    have huser := huser f hf
    rw [heq.2] at huser
    cases huser

/-- The rest of a range within the file is within the file. -/
theorem within (h : SendFileRun file fileDescriptor c offset count calls)
    (hwithin : count ≤ file.length - offset) (k : ℕ) :
    (calls k).count ≤ file.length - (calls k).offset := by
  induction k with
  | zero =>
    rw [h.offset_zero, h.count_zero]
    exact hwithin
  | succ k ih =>
    obtain ⟨-, hoffset, hcount⟩ := h.next k
    rw [hoffset, hcount]
    omega

/-- **Within the file what remains falls at every retry**, because `::sendfile` returns at least
    1 while bytes are left. -/
theorem remaining_lt (h : SendFileRun file fileDescriptor c offset count calls)
    (hwithin : count ≤ file.length - offset) (k : ℕ) :
    (calls (k + 1)).count < (calls k).count := by
  obtain ⟨hmore, -, hcount⟩ := h.next k
  have hleft : bytesLeft file (calls k).offset (calls k).count = (calls k).count :=
    Nat.min_eq_left (h.within hwithin k)
  have hreturns := h.returns k
  -- bytes are left, so at least one of them is sent
  rw [hleft, SendfileReturns, if_neg (by omega)] at hreturns
  omega

end SendFileRun

/-! ## §3 Runs without end -/

/-- The execution after `call` if nothing else happens: its functor is taken from the queue, and
    `::sendfile` sends all that the file has. -/
def SendFileCall.retry (file : List Byte) (fileDescriptor : Int) (call : SendFileCall Ch) :
    SendFileCall Ch :=
  let offset := call.offset + call.sent
  let count := call.count - call.sent
  { io := (call.result file fileDescriptor).setQueue call.io.queue
    offset := offset
    count := count
    sent := bytesLeft file offset count }

/-- The executions of a run in which nothing else happens. -/
def retries (file : List Byte) (fileDescriptor : Int) (c : ConnIo Ch) (offset count : Nat) :
    ℕ → SendFileCall Ch
  | 0 => ⟨c, offset, count, bytesLeft file offset count⟩
  | k + 1 => (retries file fileDescriptor c offset count k).retry file fileDescriptor

/-- An execution that does not finish leaves the connection as it is. -/
theorem SendFileCall.retry_conn (call : SendFileCall Ch) (file : List Byte) (fileDescriptor : Int)
    (hconn : call.io.connected = true) (hidle : call.io.idle = true)
    (hmore : call.sent < call.count) :
    (call.retry file fileDescriptor).io.conn = call.io.conn ∧
      (call.retry file fileDescriptor).io.ptr = call.io.ptr := by
  have hstate := ConnIo.state_ne_of_connected hconn
  have hrest : call.count - call.sent > 0 := by omega
  simp only [SendFileCall.retry, SendFileCall.result, ConnIo.sendFileInLoop, if_neg hstate,
    if_pos hidle, if_neg (Nat.ne_of_gt hrest), if_pos hrest]
  exact ⟨rfl, rfl⟩

/-- What holds of every execution when the range goes beyond the file. -/
structure Retries (file : List Byte) (c : ConnIo Ch) (call : SendFileCall Ch) : Prop where
  conn : call.io.conn = c.conn
  ptr : call.io.ptr = c.ptr
  beyond : file.length - call.offset < call.count
  sent : call.sent = bytesLeft file call.offset call.count

namespace Retries

variable {c : ConnIo Ch} {call : SendFileCall Ch}

theorem connected (h : Retries file c call) (hconn : c.connected = true) :
    call.io.connected = true := by
  unfold ConnIo.connected at *
  rw [h.conn]
  exact hconn

theorem idle (h : Retries file c call) (hidle : c.idle = true) : call.io.idle = true := by
  unfold ConnIo.idle at *
  rw [h.conn]
  exact hidle

theorem sent_lt (h : Retries file c call) : call.sent < call.count := by
  rw [h.sent, bytesLeft]
  have hbeyond := h.beyond
  omega

theorem retry (h : Retries file c call) (hconn : c.connected = true) (hidle : c.idle = true) :
    Retries file c (call.retry file fileDescriptor) := by
  obtain ⟨hsame, hptr⟩ := call.retry_conn file fileDescriptor (h.connected hconn) (h.idle hidle)
    h.sent_lt
  refine ⟨hsame.trans h.conn, hptr.trans h.ptr, ?_, rfl⟩
  have hbeyond := h.beyond
  have hsent := h.sent
  unfold bytesLeft at hsent
  show file.length - (call.offset + call.sent) < call.count - call.sent
  omega

end Retries

/-- **A range that goes beyond the file is tried without end.** -/
theorem sendFileRun_retries {c : ConnIo Ch} {offset count : Nat} (hconn : c.connected = true)
    (hidle : c.idle = true) (hbeyond : file.length - offset < count) :
    SendFileRun file fileDescriptor c offset count
      (retries file fileDescriptor c offset count) := by
  have hall : ∀ k, Retries file c (retries file fileDescriptor c offset count k) := by
    intro k
    induction k with
    | zero => exact ⟨rfl, rfl, hbeyond, rfl⟩
    | succ k ih => exact ih.retry hconn hidle
  refine ⟨rfl, rfl, rfl, fun k => (hall k).connected hconn, fun k => (hall k).idle hidle,
    fun k => (hall k).ptr, fun k => ?_, fun k => ?_⟩
  · -- all that the file has is an answer, and 0 is the one at its end
    rw [(hall k).sent, SendfileReturns]
    split
    · assumption
    · omega
  · rcases (retries file fileDescriptor c offset count k).result_queue file fileDescriptor
      ((hall k).connected hconn) ((hall k).idle hidle) with ⟨-, hqueue⟩ | ⟨hnone, -⟩
    · rw [hqueue, (hall k).ptr]
      rfl
    · exact absurd hnone (Nat.not_le.mpr (hall k).sent_lt)

/-- **When the retries end.** On a connected, idle connection `sendFileInLoop` queues itself
    again only finitely often in every run, exactly if the range is empty or within the file. -/
theorem sendFile_finite_iff {c : ConnIo Ch} (hconn : c.connected = true) (hidle : c.idle = true)
    (file : List Byte) (fileDescriptor : Int) (offset count : Nat) :
    (∀ calls, ¬SendFileRun file fileDescriptor c offset count calls) ↔
      count ≤ file.length - offset := by
  constructor
  · intro hfinite
    by_contra hbeyond
    exact hfinite _ (sendFileRun_retries hconn hidle (Nat.not_le.mp hbeyond))
  · intro hwithin calls hrun
    -- what remains cannot fall for ever
    obtain ⟨k, hk⟩ := WellFounded.not_rel_apply_succ (r := (· < ·)) (fun k => (calls k).count)
    exact hk (hrun.remaining_lt hwithin k)

/-- A connected connection without output. -/
def idleConn : ConnIo Unit :=
  (ConnIo.fresh 5 ⟨true, false, 0⟩).setState .kConnected

/-- Two bytes of a file of three. -/
theorem idleConn_finite :
    idleConn.connected = true ∧ idleConn.idle = true ∧
      ∀ calls, ¬SendFileRun [1, 2, 3] 7 idleConn 1 2 calls := by
  have hconn : idleConn.connected = true := by decide
  have hidle : idleConn.idle = true := by decide
  exact ⟨hconn, hidle, (sendFile_finite_iff hconn hidle [1, 2, 3] 7 1 2).mpr (by decide)⟩

/-- **Five bytes of a file of three.** The first execution sends the three bytes, and the two
    that are missing are tried without end. -/
theorem shortFile_retries :
    idleConn.connected = true ∧ idleConn.idle = true ∧
      SendFileRun [1, 2, 3] 7 idleConn 0 5 (retries [1, 2, 3] 7 idleConn 0 5) :=
  ⟨by decide, by decide, sendFileRun_retries (by decide) (by decide) (by decide)⟩

end RainWebServer.Net
