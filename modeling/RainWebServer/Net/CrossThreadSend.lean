import RainWebServer.Lib.Machine
import RainWebServer.Net.SendOrder
import Mathlib.Data.List.Forall2

/-!
# Sending from Another Thread

One external thread with a connection and its loop's thread. `send` on the external thread
queues `sendInLoop` bound to the raw `this` and to `buf.c_str()`, so whether the functor finds
the connection and the bytes depends on what happens until it runs.

The shared pointers to the connection are explicit: the entry of the server's map, the
pointer of the external thread, and the functors that were bound to one. A functor holds its
pointer until the vector of the batch it runs in is destroyed, at the end of
`doPendingFunctors`.

## Main results

- `crossSend_along_delivers` : if the external thread leaves `buf` alone and keeps the
  connection alive until the functor has run, the functor does to the connection what
  `sendInLoop` of the bytes that `buf` held does in the loop
- `crossSend_not_delivered` : runs in which it does not
-/

namespace RainWebServer.Net

open RainWebServer.Lib

/-! ## §1 Bytes and holders -/

/-- The functor is bound to a `shared_ptr` to the connection; the others are bound to the raw
    `this`. -/
def ConnFunctor.holds : ConnFunctor → Bool
  | .sendInLoop _ _ | .shutdownInLoop => false
  | _ => true

/-- The address and the number of bytes that a queued `sendInLoop` is bound to. -/
def ConnFunctor.boundBytes : ConnFunctor → Option (Nat × Nat)
  | .sendInLoop data len => some (data, len)
  | _ => none

/-- The queued calls of `sendInLoop`, in order. -/
def sendsOf (fs : List ConnFunctor) : List (Nat × Nat) := fs.filterMap ConnFunctor.boundBytes

/-- Read `len` bytes at an address; `none` if they are not there any more. -/
def readAt (storage : Nat → Option (List Byte)) (data len : Nat) : Option (List Byte) :=
  match storage data with
  | some bytes => if len ≤ bytes.length then some (bytes.take len) else none
  | none => none

/-- The connection, its loop's thread, the server's side of the teardown, and the external
    thread with the storage of its strings. -/
structure CrossRun where
  /-- `io.queue` is `pendingFunctors_`. -/
  io : ConnIo Unit
  /-- The callbacks that the current dispatch has still to make. -/
  todo : List HandlerOp
  /-- The local vector of `doPendingFunctors`, and how many of it have run. -/
  batch : List ConnFunctor
  done : Nat
  mapEntry : Bool
  removals : Nat
  externalPtr : Bool
  /-- The external thread is in `send`, has seen `kConnected` and has not queued the functor. -/
  call : Option (Nat × List Byte)
  storage : Nat → Option (List Byte)
  /-- The bytes that `buf` held in the calls of `send` whose functor has not run, in the order of
      these functors. -/
  promised : List (List Byte)

/-- What the threads do. -/
inductive CrossAct where
  | event (revents : EventMask)
  | handler (r : ReadResult) (w : WriteResult)
  /-- `send` on the loop's thread. -/
  | send (msg : List Byte) (w : WriteResult)
  | shutdown
  /-- `doPendingFunctors` takes the queue. -/
  | swap
  /-- The next functor of the batch runs. -/
  | functor (w : WriteResult)
  /-- `doPendingFunctors` returns. -/
  | endBatch
  /-- The server's loop runs `removeConnectionInLoop`. -/
  | removeConnectionInLoop
  /-- The external thread writes a string to an address. -/
  | write (data : Nat) (bytes : List Byte)
  /-- The external thread destroys the string at an address. -/
  | destroy (data : Nat)
  /-- The external thread calls `send` with the string at an address. -/
  | externalSend (data : Nat)
  /-- The external thread queues `sendInLoop` and returns from `send`. -/
  | externalPush
  /-- The external thread releases its `TcpConnectionPtr`. -/
  | release

namespace CrossRun

/-- The connection is established, in the server's map, and known to the external thread. -/
def start (io : ConnIo Unit) (storage : Nat → Option (List Byte)) : CrossRun :=
  ⟨io, [], [], 0, true, 0, true, none, storage, []⟩

def setIo (s : CrossRun) (io : ConnIo Unit) : CrossRun := { s with io := io }

/-- The functors in `pendingFunctors_`. -/
def pending (s : CrossRun) : List ConnFunctor := s.io.queue.map Prod.snd

/-- The calls of `sendInLoop` that have been queued and have not run. -/
def waiting (s : CrossRun) : List (Nat × Nat) :=
  sendsOf (s.batch.drop s.done) ++ sendsOf s.pending

/-- Some `shared_ptr` to the connection exists. -/
def held (s : CrossRun) : Bool :=
  s.externalPtr || s.mapEntry || s.removals > 0 || s.pending.any ConnFunctor.holds ||
    s.batch.any ConnFunctor.holds

/-- Which actions can be taken. The external thread does nothing else while it is in `send`. -/
def enabled (s : CrossRun) : CrossAct → Bool
  | .event _ => s.todo.isEmpty && s.batch.isEmpty &&
    (s.io.poller.interest s.io.conn.channel_.fd_).isSome
  | .handler _ _ => !s.todo.isEmpty
  | .send _ _ | .shutdown => true
  | .swap => s.todo.isEmpty && s.batch.isEmpty
  | .functor _ => s.done < s.batch.length
  | .endBatch => s.done = s.batch.length
  | .removeConnectionInLoop => s.removals > 0
  | .write _ _ | .destroy _ => s.call.isNone
  | .externalSend data => s.call.isNone && s.externalPtr && (s.storage data).isSome
  | .externalPush => s.call.isSome
  | .release => s.call.isNone

/-- `removeConnectionInLoop`, which erases the entry and queues `connectDestroyed`. -/
def removeConnectionInLoop (s : CrossRun) : CrossRun :=
  { s with mapEntry := false, io := s.io.queueInLoop .connectDestroyed }

/-- `removeConnection`. -/
def removeConnection (sameLoop : Bool) (s : CrossRun) : CrossRun :=
  if sameLoop then s.removeConnectionInLoop else { s with removals := s.removals + 1 }

/-- The next callback of the dispatch. -/
def handler (sameLoop : Bool) (s : CrossRun) (r : ReadResult) (w : WriteResult) :
    Option CrossRun :=
  match s.todo with
  | [] => some s
  | op :: todo => do
    let (io, ops) ← s.io.runHandler r w op
    let s := { s with io := io, todo := ops ++ todo }
    some (if op = .closeCallback then s.removeConnection sameLoop else s)

/-- A queued `sendInLoop` runs on the bytes that are at its address now. If they are gone, or
    the connection is, then what it does is undefined, and nothing of it is modelled. -/
def runSend (s : CrossRun) (data len : Nat) (w : WriteResult) : Option CrossRun :=
  let s' := { s with promised := s.promised.tail }
  match readAt s.storage data len with
  | some bytes => if s.held then (s.io.sendInLoop bytes w).map s'.setIo else some s'
  | none => some s'

/-- The next functor of the batch. -/
def functor (s : CrossRun) (w : WriteResult) : Option CrossRun :=
  let s' := { s with done := s.done + 1 }
  match s.batch[s.done]? with
  | none => some s
  | some (.sendInLoop data len) => s'.runSend data len w
  | some .connectDestroyed => s'.io.connectDestroyed.map s'.setIo
  -- a user callback, whose calls are actions of their own; no other kind is queued here
  | some _ => some s'

/-- The effect of an action. -/
def step (sameLoop : Bool) (s : CrossRun) : CrossAct → Option CrossRun
  | .event revents =>
    some { s with io := s.io.setRevents revents, todo := handleEventWithGuard revents }
  | .handler r w => s.handler sameLoop r w
  | .send msg w => (s.io.send msg w).map s.setIo
  | .shutdown => some (s.setIo s.io.shutdown)
  | .swap => some { s with batch := s.pending, done := 0, io := { s.io with queue := [] } }
  | .functor w => s.functor w
  | .endBatch => some { s with batch := [], done := 0 }
  | .removeConnectionInLoop =>
    some { s.removeConnectionInLoop with removals := s.removals - 1 }
  | .write data bytes => some { s with storage := Function.update s.storage data (some bytes) }
  | .destroy data => some { s with storage := Function.update s.storage data none }
  | .externalSend data =>
    some (match s.storage data with
      | some bytes => if s.io.connected then { s with call := some (data, bytes) } else s
      | none => s)
  | .externalPush =>
    some (match s.call with
      | some (data, bytes) => { s with
          io := s.io.queueInLoop (.sendInLoop data bytes.length)
          promised := s.promised ++ [bytes]
          call := none }
      | none => s)
  | .release => some { s with externalPtr := false }

end CrossRun

/-- The connection, its loop's thread and the external thread as a machine. -/
def crossMachine (sameLoop : Bool) : Machine CrossRun CrossAct :=
  ⟨CrossRun.enabled, CrossRun.step sameLoop⟩

/-! ## §2 Delivery -/

/-- If the functor that runs next is a queued `sendInLoop`, then a `shared_ptr` to the connection
    exists, and whatever the socket answers, the functor does to the connection, with its
    `::write` and its output buffer, what `sendInLoop` of the bytes that `buf` held in `send` does
    in the loop. -/
def CrossRun.Delivers (sameLoop : Bool) (s : CrossRun) : Prop :=
  ∀ data len, s.batch[s.done]? = some (.sendInLoop data len) →
    s.held = true ∧ ∃ sent, s.promised.head? = some sent ∧
      ∀ w, (s.step sameLoop (.functor w)).map CrossRun.io = s.io.sendInLoop sent w

/-- A holder other than the external thread that outlives the waiting calls: the map entry, a
    queued `removeConnectionInLoop`, a functor in `pendingFunctors_`, or, when no call waits
    there, a functor of the current batch. -/
def CrossRun.heldElsewhere (s : CrossRun) : Bool :=
  s.mapEntry || s.removals > 0 || s.pending.any ConnFunctor.holds ||
    ((sendsOf s.pending).isEmpty && s.batch.any ConnFunctor.holds)

/-- The external thread leaves the bytes of a waiting call alone, and gives up its pointer
    while a call waits only if the connection is held elsewhere. -/
def CrossRun.careful (s : CrossRun) : CrossAct → Bool
  | .write data _ | .destroy data => (s.waiting.map Prod.fst).all (· ≠ data)
  | .release => s.waiting.isEmpty || s.heldElsewhere
  | _ => true

/-! ## §3 What the loop's thread queues -/

namespace ConnIo

variable {c c' c'' : ConnIo Unit}

/-- The queue has grown by user callbacks only. -/
def QueueGrows (c c' : ConnIo Unit) : Prop :=
  ∃ fs, c'.queue = c.queue ++ fs ∧ ∀ f ∈ fs, f.2.isUser = true

theorem QueueGrows.of_eq (h : c'.queue = c.queue) : QueueGrows c c' := ⟨[], by simp [h], by simp⟩

theorem QueueGrows.trans (h₁ : QueueGrows c c') (h₂ : QueueGrows c' c'') : QueueGrows c c'' := by
  obtain ⟨fs₁, hq₁, hu₁⟩ := h₁
  obtain ⟨fs₂, hq₂, hu₂⟩ := h₂
  refine ⟨fs₁ ++ fs₂, by rw [hq₂, hq₁, List.append_assoc], ?_⟩
  intro f hf
  exact (List.mem_append.mp hf).elim (hu₁ f) (hu₂ f)

/-- Steps that leave the queue alone may come first. -/
theorem QueueGrows.after (h : QueueGrows c' c'') (heq : c'.queue = c.queue) : QueueGrows c c'' :=
  (QueueGrows.of_eq heq).trans h

theorem QueueGrows.queueUser {f : ConnFunctor} (hf : f.isUser = true) :
    QueueGrows c (c.queueInLoop f) :=
  ⟨[(c.ptr, f)], rfl, by simpa using hf⟩

theorem queueGrows_setEvents {events : EventMask} (h : c.setEvents events = some c') :
    QueueGrows c c' := by
  obtain ⟨polled, -, hc'⟩ := Option.bind_eq_some_iff.mp h
  cases hc'
  exact .of_eq rfl

theorem queueGrows_queueWriteComplete (c : ConnIo Unit) : QueueGrows c c.queueWriteComplete := by
  unfold queueWriteComplete
  split
  · exact .queueUser rfl
  · exact .of_eq rfl

theorem queueGrows_queueHighWaterMark (c : ConnIo Unit) (n : Nat) :
    QueueGrows c (c.queueHighWaterMark n) := by
  simp only [queueHighWaterMark]
  split
  · exact .queueUser rfl
  · exact .of_eq rfl

theorem queueGrows_bufferRemaining {rest : List Byte} (h : c.bufferRemaining rest = some c') :
    QueueGrows c c' := by
  unfold bufferRemaining at h
  split at h
  · obtain ⟨buffer, -, hrest⟩ := Option.bind_eq_some_iff.mp h
    refine (queueGrows_queueHighWaterMark c rest.length).trans ?_
    simp only at hrest
    split at hrest
    · exact (queueGrows_setEvents hrest).after rfl
    · cases hrest
      exact .of_eq rfl
  · cases h
    exact .of_eq rfl

theorem queueGrows_sendInLoop {data : List Byte} {w : WriteResult}
    (h : c.sendInLoop data w = some c') : QueueGrows c c' := by
  unfold sendInLoop at h
  split at h
  · cases w with
    | accepted n =>
      refine QueueGrows.trans ?_ (queueGrows_bufferRemaining h)
      split
      · exact (queueGrows_queueWriteComplete _).after rfl
      · exact .of_eq rfl
    | error errno =>
      simp only at h
      split at h
      · cases h
        exact .of_eq rfl
      · exact (queueGrows_bufferRemaining h).after rfl
  · exact queueGrows_bufferRemaining h

theorem queueGrows_send {msg : List Byte} {w : WriteResult} (h : c.send msg w = some c') :
    QueueGrows c c' := by
  unfold send at h
  split at h
  · exact queueGrows_sendInLoop h
  · cases h
    exact .of_eq rfl

theorem queueGrows_shutdownInLoop (c : ConnIo Unit) : QueueGrows c c.shutdownInLoop := by
  unfold shutdownInLoop
  split <;> exact .of_eq rfl

theorem queueGrows_shutdown (c : ConnIo Unit) : QueueGrows c c.shutdown := by
  unfold shutdown
  split
  · exact (queueGrows_shutdownInLoop _).after rfl
  · exact .of_eq rfl

theorem queueGrows_disconnect (h : c.disconnect = some c') : QueueGrows c c' := by
  obtain ⟨c₁, hset, hc'⟩ := Option.bind_eq_some_iff.mp h
  cases hc'
  exact ((queueGrows_setEvents hset).after rfl).trans (.of_eq rfl)

theorem queueGrows_removeChannel (h : c.removeChannel = some c') : QueueGrows c c' := by
  obtain ⟨polled, -, hc'⟩ := Option.bind_eq_some_iff.mp h
  cases hc'
  exact .of_eq rfl

theorem queueGrows_connectDestroyed (h : c.connectDestroyed = some c') : QueueGrows c c' := by
  simp only [connectDestroyed, Option.bind_eq_bind] at h
  split at h
  · obtain ⟨c₁, hdisc, hremove⟩ := Option.bind_eq_some_iff.mp h
    exact (queueGrows_disconnect hdisc).trans (queueGrows_removeChannel hremove)
  · exact queueGrows_removeChannel h

theorem queueGrows_handleWrite {w : WriteResult} (h : c.handleWrite w = some c') :
    QueueGrows c c' := by
  unfold handleWrite at h
  split at h
  · cases w with
    | error errno =>
      cases h
      exact .of_eq rfl
    | accepted n =>
      simp only at h
      split at h
      · split at h
        · obtain ⟨c₁, hdisable, hc'⟩ := Option.bind_eq_some_iff.mp h
          cases hc'
          have hgrow : QueueGrows c c₁ := (queueGrows_setEvents hdisable).after rfl
          refine hgrow.trans ((queueGrows_queueWriteComplete c₁).trans ?_)
          split
          · exact queueGrows_shutdownInLoop _
          · exact .of_eq rfl
        · cases h
          exact .of_eq rfl
      · cases h
        exact .of_eq rfl
  · cases h
    exact .of_eq rfl

/-- A callback of the channel queues user callbacks only. -/
theorem queueGrows_runHandler {r : ReadResult} {w : WriteResult} {op : HandlerOp}
    {ops : List HandlerOp} (h : c.runHandler r w op = some (c', ops)) : QueueGrows c c' := by
  cases op with
  | handleClose =>
    obtain ⟨c₁, hclose, heq⟩ := Option.map_eq_some_iff.mp h
    cases heq
    exact queueGrows_disconnect hclose
  | closeCallback =>
    cases h
    exact .of_eq rfl
  | handleError =>
    cases h
    exact .of_eq rfl
  | handleRead =>
    cases r with
    | error =>
      cases h
      exact .of_eq rfl
    | bytes data =>
      simp only [runHandler, handleRead] at h
      split at h
      · obtain ⟨buffer, -, heq⟩ := Option.bind_eq_some_iff.mp h
        cases heq
        exact .of_eq rfl
      · cases h
        exact .of_eq rfl
  | handleWrite =>
    obtain ⟨c₁, hwrite, heq⟩ := Option.map_eq_some_iff.mp h
    cases heq
    exact queueGrows_handleWrite hwrite

end ConnIo

/-! ## §4 The invariant -/

namespace CrossRun

/-- Something holds the connection for as long as a call waits. -/
def durable (s : CrossRun) : Bool := s.externalPtr || s.heldElsewhere

/-- The invariant of careful runs. -/
structure Inv (s : CrossRun) : Prop where
  /-- Each waiting call still finds the bytes that `buf` held. -/
  promise : List.Forall₂ (fun p bytes => readAt s.storage p.1 p.2 = some bytes) s.waiting
    s.promised
  call : ∀ data bytes, s.call = some (data, bytes) →
    s.storage data = some bytes ∧ s.externalPtr = true
  held : s.waiting ≠ [] → s.durable = true

theorem sendsOf_append (fs gs : List ConnFunctor) :
    sendsOf (fs ++ gs) = sendsOf fs ++ sendsOf gs := List.filterMap_append

theorem sendsOf_of_isUser {fs : List ConnFunctor} (h : ∀ f ∈ fs, f.isUser = true) :
    sendsOf fs = [] := by
  apply List.filterMap_eq_nil_iff.mpr
  intro f hf
  have huser := h f hf
  cases f <;> first | rfl | cases huser

/-- A durable connection is held. -/
theorem held_of_durable {s : CrossRun} (h : s.durable = true) : s.held = true := by
  simp only [durable, heldElsewhere, Bool.or_eq_true, Bool.and_eq_true] at h
  simp only [CrossRun.held, Bool.or_eq_true]
  tauto

/-- A step of the loop's thread that queues user callbacks only. -/
theorem Inv.loopStep {s : CrossRun} (h : s.Inv) {io' : ConnIo Unit}
    (hgrow : s.io.QueueGrows io') (todo : List HandlerOp) :
    Inv { s with io := io', todo := todo } := by
  obtain ⟨fs, hqueue, huser⟩ := hgrow
  have hpending : pending { s with io := io', todo := todo } = s.pending ++ fs.map Prod.snd := by
    simp only [pending, hqueue, List.map_append]
  have hsends : sendsOf (pending { s with io := io', todo := todo }) = sendsOf s.pending := by
    have huser' : ∀ f ∈ fs.map Prod.snd, f.isUser = true := by
      intro f hf
      obtain ⟨f', hf', rfl⟩ := List.mem_map.mp hf
      exact huser f' hf'
    rw [hpending, sendsOf_append, sendsOf_of_isUser huser', List.append_nil]
  have hwaiting : waiting { s with io := io', todo := todo } = s.waiting := by
    simp only [waiting, hsends]
  refine ⟨?_, h.call, ?_⟩
  · rw [hwaiting]
    exact h.promise
  · rw [hwaiting]
    intro hne
    have hdurable := h.held hne
    simp only [durable, heldElsewhere, Bool.or_eq_true, Bool.and_eq_true] at hdurable ⊢
    rw [hsends, hpending, List.any_append, Bool.or_eq_true]
    tauto

/-- `removeConnectionInLoop` leaves `connectDestroyed` behind, which holds the connection. -/
theorem Inv.removeConnectionInLoop {s : CrossRun} (h : s.Inv) (removals : Nat) :
    Inv { s.removeConnectionInLoop with removals := removals } := by
  have hpending : pending { s.removeConnectionInLoop with removals := removals } =
      s.pending ++ [.connectDestroyed] := by
    simp [pending, CrossRun.removeConnectionInLoop, ConnIo.queueInLoop]
  have hwaiting : waiting { s.removeConnectionInLoop with removals := removals } = s.waiting := by
    simp only [waiting, hpending, sendsOf_append]
    simp [sendsOf, ConnFunctor.boundBytes, CrossRun.removeConnectionInLoop]
  refine ⟨?_, h.call, ?_⟩
  · rw [hwaiting]
    exact h.promise
  · intro _
    simp only [durable, heldElsewhere, hpending, List.any_append, Bool.or_eq_true]
    exact .inr (.inl (.inr (.inr rfl)))

/-- One callback of a dispatch. -/
theorem Inv.handler {s t : CrossRun} (h : s.Inv) {sameLoop : Bool} {r : ReadResult}
    {w : WriteResult} (hstep : s.handler sameLoop r w = some t) : t.Inv := by
  unfold CrossRun.handler at hstep
  cases htodo : s.todo with
  | nil =>
    simp only [htodo, Option.some.injEq] at hstep
    exact hstep ▸ h
  | cons op todo =>
    simp only [htodo] at hstep
    obtain ⟨⟨io', ops⟩, hrun, heq⟩ := Option.bind_eq_some_iff.mp hstep
    have h' := h.loopStep (ConnIo.queueGrows_runHandler hrun) (ops ++ todo)
    simp only [Option.some.injEq] at heq
    rw [← heq]
    split
    · unfold CrossRun.removeConnection
      split
      · exact h'.removeConnectionInLoop s.removals
      · refine ⟨h'.promise, h'.call, ?_⟩
        intro _
        simp [durable, heldElsewhere]
    · exact h'

/-- The batch and what has run of it, split at the next functor. -/
theorem waiting_of_next {s : CrossRun} {f : ConnFunctor} (hf : s.batch[s.done]? = some f) :
    s.waiting = sendsOf [f] ++ waiting { s with done := s.done + 1 } := by
  obtain ⟨hlt, hget⟩ := List.getElem?_eq_some_iff.mp hf
  simp only [waiting, ← List.append_assoc, ← sendsOf_append]
  rw [List.drop_eq_getElem_cons hlt, hget]
  rfl

/-- A functor that is no `sendInLoop` is passed. -/
theorem Inv.pass {s : CrossRun} (h : s.Inv) {f : ConnFunctor} (hf : s.batch[s.done]? = some f)
    (hsend : f.boundBytes = none) : Inv { s with done := s.done + 1 } := by
  have hwaiting : waiting { s with done := s.done + 1 } = s.waiting := by
    rw [waiting_of_next hf]
    simp [sendsOf, hsend]
  refine ⟨?_, h.call, ?_⟩
  · rw [hwaiting]
    exact h.promise
  · rw [hwaiting]
    exact h.held

/-- What the `sendInLoop` that runs next finds: its bytes, and something that holds the
    connection. The calls behind it keep their promises. -/
theorem Inv.next {s : CrossRun} (h : s.Inv) {data len : Nat}
    (hf : s.batch[s.done]? = some (.sendInLoop data len)) :
    ∃ sent promised, s.promised = sent :: promised ∧ readAt s.storage data len = some sent ∧
      s.durable = true ∧
      List.Forall₂ (fun p bytes => readAt s.storage p.1 p.2 = some bytes)
        (waiting { s with done := s.done + 1 }) promised := by
  have hwaiting := waiting_of_next hf
  have hpromise := h.promise
  rw [hwaiting] at hpromise
  change List.Forall₂ _ ((data, len) :: waiting { s with done := s.done + 1 }) _ at hpromise
  cases hpromised : s.promised with
  | nil =>
    rw [hpromised] at hpromise
    cases hpromise
  | cons bytes promised =>
    rw [hpromised] at hpromise
    obtain ⟨hread, hrest⟩ := List.forall₂_cons.mp hpromise
    have hne : s.waiting ≠ [] := by
      rw [hwaiting]
      exact List.cons_ne_nil _ _
    exact ⟨bytes, promised, rfl, hread, h.held hne, hrest⟩

/-- **A queued `sendInLoop` does what it does in the loop.** -/
theorem Inv.delivers {s : CrossRun} (h : s.Inv) (sameLoop : Bool) : s.Delivers sameLoop := by
  intro data len hf
  obtain ⟨sent, promised, hpromised, hread, hdurable, -⟩ := h.next hf
  have hheld := held_of_durable hdurable
  refine ⟨hheld, sent, by rw [hpromised, List.head?_cons], fun w => ?_⟩
  have hheld' : CrossRun.held { s with done := s.done + 1 } = true := hheld
  simp only [CrossRun.step, CrossRun.functor, hf, CrossRun.runSend, hread, hheld', if_true,
    Option.map_map]
  exact Option.map_id'

/-- A queued `sendInLoop` runs. -/
theorem Inv.runSend {s t : CrossRun} (h : s.Inv) {data len : Nat} {w : WriteResult}
    (hf : s.batch[s.done]? = some (.sendInLoop data len))
    (hstep : runSend { s with done := s.done + 1 } data len w = some t) : t.Inv := by
  obtain ⟨sent, promised, hpromised, hread, hdurable, hrest⟩ := h.next hf
  have hheld : CrossRun.held { s with done := s.done + 1 } = true := held_of_durable hdurable
  -- the state before the effect of `sendInLoop` on the connection
  have h' : Inv { s with done := s.done + 1, promised := promised } :=
    ⟨hrest, h.call, fun _ => hdurable⟩
  simp only [CrossRun.runSend, hread, hheld, if_true] at hstep
  simp only [hpromised, List.tail_cons] at hstep
  obtain ⟨io', hsend, heq⟩ := Option.map_eq_some_iff.mp hstep
  rw [← heq]
  exact h'.loopStep (ConnIo.queueGrows_sendInLoop hsend) s.todo

/-- The next functor of the batch. -/
theorem Inv.functor {s t : CrossRun} (h : s.Inv) {w : WriteResult}
    (hstep : s.functor w = some t) : t.Inv := by
  unfold CrossRun.functor at hstep
  cases hf : s.batch[s.done]? with
  | none =>
    simp only [hf, Option.some.injEq] at hstep
    exact hstep ▸ h
  | some f =>
    simp only [hf] at hstep
    cases f with
    | sendInLoop data len => exact h.runSend hf hstep
    | connectDestroyed =>
      obtain ⟨io', hdestroy, heq⟩ := Option.map_eq_some_iff.mp hstep
      rw [← heq]
      exact (h.pass hf rfl).loopStep (ConnIo.queueGrows_connectDestroyed hdestroy) s.todo
    | _ =>
      simp only [Option.some.injEq] at hstep
      exact hstep ▸ h.pass hf rfl

/-- `doPendingFunctors` takes the queue: what held the connection there holds it now in the
    batch, and no call waits anywhere else. -/
theorem Inv.swap {s : CrossRun} (h : s.Inv) (hbatch : s.batch = []) :
    Inv { s with batch := s.pending, done := 0, io := { s.io with queue := [] } } := by
  have hwaiting : waiting { s with batch := s.pending, done := 0, io := { s.io with queue := [] } }
      = s.waiting := by
    simp [waiting, pending, sendsOf, hbatch]
  refine ⟨?_, h.call, ?_⟩
  · rw [hwaiting]
    exact h.promise
  · rw [hwaiting]
    intro hne
    have hdurable := h.held hne
    simp only [durable, heldElsewhere, hbatch, List.any_nil, Bool.and_false, Bool.or_false,
      Bool.or_eq_true] at hdurable
    simp only [durable, heldElsewhere, pending, List.map_nil, List.any_nil, Bool.or_false,
      Bool.or_eq_true, Bool.and_eq_true, sendsOf, List.filterMap_nil, List.isEmpty_nil,
      true_and]
    simp only [pending] at hdurable
    tauto

/-- `doPendingFunctors` returns: a call that waits now waits in the queue. -/
theorem Inv.endBatch {s : CrossRun} (h : s.Inv) (hdone : s.done = s.batch.length) :
    Inv { s with batch := [], done := 0 } := by
  have hwaiting : waiting { s with batch := [], done := 0 } = s.waiting := by
    simp [waiting, pending, sendsOf, hdone]
  refine ⟨?_, h.call, ?_⟩
  · rw [hwaiting]
    exact h.promise
  · rw [hwaiting]
    intro hne
    have hdurable := h.held hne
    have hpending : sendsOf s.pending ≠ [] := by
      simpa [waiting, hdone, sendsOf] using hne
    simp only [durable, heldElsewhere, Bool.or_eq_true, Bool.and_eq_true,
      List.isEmpty_iff, hpending, false_and, or_false] at hdurable
    simp only [durable, heldElsewhere, Bool.or_eq_true]
    simp only [pending] at hdurable ⊢
    tauto

theorem readAt_update {storage : Nat → Option (List Byte)} {data data' len : Nat}
    (entry : Option (List Byte)) (h : data' ≠ data) :
    readAt (Function.update storage data entry) data' len = readAt storage data' len := by
  simp only [readAt, Function.update_of_ne h]

/-- A change of the storage that no waiting call sees. -/
theorem Inv.setStorage {s : CrossRun} (h : s.Inv) {data : Nat} (entry : Option (List Byte))
    (hcall : s.call = none) (hfree : ∀ p ∈ s.waiting, p.1 ≠ data) :
    Inv { s with storage := Function.update s.storage data entry } := by
  have hkeep : ∀ {waiting : List (Nat × Nat)} {promised : List (List Byte)},
      List.Forall₂ (fun p bytes => readAt s.storage p.1 p.2 = some bytes) waiting promised →
      (∀ p ∈ waiting, p.1 ≠ data) →
      List.Forall₂ (fun p bytes =>
        readAt (Function.update s.storage data entry) p.1 p.2 = some bytes) waiting promised := by
    intro waiting promised hpromise
    induction hpromise with
    | nil => exact fun _ => .nil
    | cons hread _ ih =>
      intro hfree
      refine .cons ?_ (ih (fun p hp => hfree p (List.mem_cons_of_mem _ hp)))
      rw [readAt_update entry (hfree _ List.mem_cons_self)]
      exact hread
  refine ⟨hkeep h.promise hfree, ?_, h.held⟩
  intro data' bytes hc
  have hnone : s.call = some (data', bytes) := hc
  rw [hcall] at hnone
  cases hnone

/-- `sendInLoop` is queued while the external thread still has its pointer and its string. -/
theorem Inv.push {s : CrossRun} (h : s.Inv) {data : Nat} {bytes : List Byte}
    (hcall : s.call = some (data, bytes)) :
    Inv { s with
      io := s.io.queueInLoop (.sendInLoop data bytes.length)
      promised := s.promised ++ [bytes]
      call := none } := by
  obtain ⟨hstorage, hptr⟩ := h.call data bytes hcall
  have hwaiting : waiting { s with
      io := s.io.queueInLoop (.sendInLoop data bytes.length)
      promised := s.promised ++ [bytes]
      call := none } = s.waiting ++ [(data, bytes.length)] := by
    simp [waiting, pending, sendsOf, ConnIo.queueInLoop, ConnFunctor.boundBytes]
  refine ⟨?_, fun data' bytes' hnone => (by cases hnone), ?_⟩
  · rw [hwaiting]
    refine List.rel_append h.promise (.cons ?_ .nil)
    simp [readAt, hstorage]
  · intro _
    simp [durable, hptr]

/-! ## §5 Careful runs -/

/-- Every careful step keeps the invariant. -/
theorem Inv.step {s t : CrossRun} (h : s.Inv) {sameLoop : Bool} {a : CrossAct}
    (he : s.enabled a = true) (hcareful : s.careful a = true)
    (hstep : s.step sameLoop a = some t) : t.Inv := by
  cases a with
  | event revents =>
    simp only [CrossRun.step, Option.some.injEq] at hstep
    -- what the loop itself does touches neither the strings nor the external call
    have hgrow : s.io.QueueGrows (s.io.setRevents revents) := .of_eq rfl
    exact hstep ▸ h.loopStep hgrow _
  | handler r w => exact h.handler hstep
  | send msg w =>
    obtain ⟨io', hsend, heq⟩ := Option.map_eq_some_iff.mp hstep
    exact heq ▸ h.loopStep (ConnIo.queueGrows_send hsend) s.todo
  | shutdown =>
    simp only [CrossRun.step, Option.some.injEq] at hstep
    exact hstep ▸ h.loopStep (ConnIo.queueGrows_shutdown s.io) s.todo
  | swap =>
    simp only [CrossRun.step, Option.some.injEq] at hstep
    simp only [CrossRun.enabled, Bool.and_eq_true, List.isEmpty_iff] at he
    exact hstep ▸ h.swap he.2
  | functor w => exact h.functor hstep
  | endBatch =>
    simp only [CrossRun.step, Option.some.injEq] at hstep
    simp only [CrossRun.enabled, decide_eq_true_eq] at he
    exact hstep ▸ h.endBatch he
  | removeConnectionInLoop =>
    simp only [CrossRun.step, Option.some.injEq] at hstep
    exact hstep ▸ h.removeConnectionInLoop _
  | write data bytes =>
    simp only [CrossRun.step, Option.some.injEq] at hstep
    simp only [CrossRun.enabled, Option.isNone_iff_eq_none] at he
    -- the string may change: no queued `sendInLoop` is bound to it
    refine hstep ▸ h.setStorage _ he ?_
    simpa [careful] using hcareful
  | destroy data =>
    simp only [CrossRun.step, Option.some.injEq] at hstep
    simp only [CrossRun.enabled, Option.isNone_iff_eq_none] at he
    refine hstep ▸ h.setStorage _ he ?_
    simpa [careful] using hcareful
  | externalSend data =>
    simp only [CrossRun.step, Option.some.injEq] at hstep
    simp only [CrossRun.enabled, Bool.and_eq_true] at he
    rw [← hstep]
    split
    · rename_i bytes hbytes
      split
      · refine ⟨h.promise, ?_, h.held⟩
        -- from here to the push the caller's own string is what it was
        rintro data' bytes' hc
        cases hc
        exact ⟨hbytes, he.1.2⟩
      · exact h
    · exact h
  | externalPush =>
    simp only [CrossRun.step, Option.some.injEq] at hstep
    rw [← hstep]
    split
    · rename_i data bytes hcall
      exact h.push hcall
    · exact h
  | release =>
    simp only [CrossRun.step, Option.some.injEq] at hstep
    simp only [CrossRun.enabled, Option.isNone_iff_eq_none] at he
    simp only [careful, Bool.or_eq_true, List.isEmpty_iff] at hcareful
    rw [← hstep]
    -- the pointer is given up: nothing waits, or the connection is held elsewhere
    refine ⟨h.promise, ?_, ?_⟩
    · intro data bytes hc
      have hnone : s.call = some (data, bytes) := hc
      rw [he] at hnone
      cases hnone
    · intro hne
      exact Bool.or_eq_true_iff.mpr (.inr (hcareful.resolve_left hne))

end CrossRun

/-- **A careful external thread is delivered.** In every state reached by a run in which the
    external thread neither overwrites nor destroys a string while a queued `sendInLoop` is
    bound to it, and releases its pointer while one waits only if the connection is held
    elsewhere: a queued `sendInLoop` that runs next runs while some `shared_ptr` to the connection
    exists, and sends what `sendInLoop` of the bytes that `buf` held in `send` sends. -/
theorem crossSend_along_delivers {sameLoop : Bool} {sockfd : Int} {user : UserCallbacks}
    {io : ConnIo Unit} (hest : (ConnIo.fresh sockfd user).connectEstablished = some io)
    {storage : Nat → Option (List Byte)} {as : List CrossAct} {s : CrossRun}
    (h : (crossMachine sameLoop).ReachesAlong (fun s a => s.careful a = true)
      (.start io storage) as s) : s.Delivers sameLoop := by
  have hinv := Machine.invariant_reaches_along (I := CrossRun.Inv) ?_
    (fun t a u ht he hcareful hstep => ht.step he hcareful hstep) h
  · exact hinv.delivers sameLoop
  · obtain ⟨io', hest', -, hqueue, -⟩ := ConnIo.connectEstablished_fresh sockfd user
    rw [hest, Option.some.injEq] at hest'
    subst hest'
    refine ⟨?_, nofun, ?_⟩
    · simp [CrossRun.start, CrossRun.waiting, CrossRun.pending, hqueue, sendsOf]
    · simp [CrossRun.start, CrossRun.durable]

/-- The external thread sends and lets go of the connection, the peer closes, and the functor
    is to run in one batch with `connectDestroyed`. -/
def carefulSendRun : List CrossAct :=
  [.write 100 [65], .externalSend 100, .externalPush, .release, .event EPOLLIN,
    .handler (.bytes []) (.accepted 0), .handler .error (.accepted 0),
    .handler .error (.accepted 0), .removeConnectionInLoop, .swap]

theorem carefulSendRun_delivers :
    ∃ io s, (ConnIo.fresh 5 ⟨false, false, 0⟩).connectEstablished = some io ∧
      (crossMachine false).ReachesAlong (fun s a => s.careful a = true)
        (.start io (fun _ => none)) carefulSendRun s ∧
      s.batch[s.done]? = some (.sendInLoop 100 1) ∧ s.externalPtr = false ∧
      s.promised = [[65]] ∧
      (s.step false (.functor (.accepted 1))).map CrossRun.io =
        s.io.sendInLoop [65] (.accepted 1) := by
  obtain ⟨io, hest, -⟩ := ConnIo.connectEstablished_fresh 5 ⟨false, false, 0⟩
  have hrun : ((ConnIo.fresh 5 ⟨false, false, 0⟩).connectEstablished.bind fun io =>
      (crossMachine false).runAlong CrossRun.careful (.start io (fun _ => none))
        carefulSendRun).map (fun s => (s.batch[s.done]?, s.externalPtr, s.promised)) =
        some (some (.sendInLoop 100 1), false, [[65]]) := by
    decide +kernel
  rw [hest, Option.bind_some] at hrun
  obtain ⟨s, hs, hstate⟩ := Option.map_eq_some_iff.mp hrun
  simp only [Prod.mk.injEq] at hstate
  obtain ⟨hnext, hptr, hpromised⟩ := hstate
  have hreach := Machine.reachesAlong_of_runAlong hs
  obtain ⟨-, sent, hsent, heffect⟩ := crossSend_along_delivers hest hreach 100 1 hnext
  rw [hpromised, List.head?_cons, Option.some.injEq] at hsent
  subst hsent
  exact ⟨io, s, hest, hreach, hnext, hptr, hpromised, heffect _⟩

/-- The external thread overwrites its string after `send` has returned. -/
def overwriteRun : List CrossAct :=
  [.write 100 [65], .externalSend 100, .externalPush, .write 100 [66], .swap]

/-- The connection is torn down while the external thread is in `send`, and released by it
    afterwards. -/
def lateReleaseRun : List CrossAct :=
  [.write 100 [65], .externalSend 100, .event EPOLLIN, .handler (.bytes []) (.accepted 0),
    .handler .error (.accepted 0), .handler .error (.accepted 0), .removeConnectionInLoop, .swap,
    .functor (.accepted 0), .endBatch, .externalPush, .release, .swap]

/-- **Two runs that do not deliver**: the functor sends the new string, and the functor runs when
    no `shared_ptr` to the connection is left. -/
theorem crossSend_not_delivered :
    ∃ io, (ConnIo.fresh 5 ⟨false, false, 0⟩).connectEstablished = some io ∧
      (∃ s, (crossMachine false).Reaches (.start io (fun _ => none)) overwriteRun s ∧
        s.promised = [[65]] ∧
        (s.step false (.functor (.accepted 1))).map (fun t => acceptedBytes t.io.trace) =
          some [66] ∧ ¬s.Delivers false) ∧
      (∃ s, (crossMachine false).Reaches (.start io (fun _ => none)) lateReleaseRun s ∧
        s.batch[s.done]? = some (.sendInLoop 100 1) ∧ s.held = false ∧ ¬s.Delivers false) := by
  obtain ⟨io, hest, -⟩ := ConnIo.connectEstablished_fresh 5 ⟨false, false, 0⟩
  have hwrite : ((ConnIo.fresh 5 ⟨false, false, 0⟩).connectEstablished.bind fun io =>
      (crossMachine false).run (.start io (fun _ => none)) overwriteRun).map
      (fun s => (s.batch[s.done]?, s.promised,
        (s.step false (.functor (.accepted 1))).map (fun t => acceptedBytes t.io.trace),
        (s.io.sendInLoop [65] (.accepted 1)).map (fun c => acceptedBytes c.trace))) =
      some (some (.sendInLoop 100 1), [[65]], some [66], some [65]) := by decide +kernel
  have hrelease : ((ConnIo.fresh 5 ⟨false, false, 0⟩).connectEstablished.bind fun io =>
      (crossMachine false).run (.start io (fun _ => none)) lateReleaseRun).map
      (fun s => (s.batch[s.done]?, s.held)) = some (some (.sendInLoop 100 1), false) := by
    decide +kernel
  rw [hest, Option.bind_some] at hwrite hrelease
  obtain ⟨s, hs, hstate⟩ := Option.map_eq_some_iff.mp hwrite
  simp only [Prod.mk.injEq] at hstate
  obtain ⟨hnext, hpromised, hwritten, hinLoop⟩ := hstate
  obtain ⟨u, hu, hstate'⟩ := Option.map_eq_some_iff.mp hrelease
  simp only [Prod.mk.injEq] at hstate'
  obtain ⟨hnext', hheld⟩ := hstate'
  refine ⟨io, hest, ⟨s, Machine.reaches_of_run hs, hpromised, hwritten, fun hdelivers => ?_⟩, u,
    Machine.reaches_of_run hu, hnext', hheld, fun hdelivers => ?_⟩
  · -- in the loop the old string would have been written
    obtain ⟨-, sent, hsent, heffect⟩ := hdelivers 100 1 hnext
    rw [hpromised, List.head?_cons, Option.some.injEq] at hsent
    subst hsent
    rw [← heffect, Option.map_map] at hinLoop
    have hsame := hwritten.symm.trans hinLoop
    exact absurd hsame (by decide)
  · have hholder := (hdelivers 100 1 hnext').1
    rw [hheld] at hholder
    cases hholder

end RainWebServer.Net
