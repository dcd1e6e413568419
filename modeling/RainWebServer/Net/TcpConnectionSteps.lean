import RainWebServer.Net.TcpConnection

/-!
# What the Functions of TcpConnection Do

One lemma for each function of `RainWebServer.Net.TcpConnection`. A call on a connection
touches its own members, the entries of its own fd in the poller, the end of the loop's queue
and the end of the trace (`Extends`). While the connection is open (`Open`), the channel is
interested in writing exactly when bytes wait in the output buffer.

## Main results

- `sendInLoop_spec`, `handleWrite_spec` : the two routes of the data keep an open connection
  open and neither lose, repeat nor reorder a byte
- `disconnect_spec` : after a close the channel is registered nowhere
-/

namespace RainWebServer.Net

/-! ## §1 What a call touches -/

/-- The functor calls a user callback. -/
def ConnFunctor.isUser : ConnFunctor → Bool
  | .writeCompleteCallback | .highWaterMarkCallback _ => true
  | _ => false

/-- The bytes that the socket accepted. -/
def acceptedBytes (trace : List ConnEvent) : List Byte :=
  trace.flatMap fun
    | .write accepted | .sendfile accepted => accepted
    | _ => []

@[simp] theorem acceptedBytes_append (es₁ es₂ : List ConnEvent) :
    acceptedBytes (es₁ ++ es₂) = acceptedBytes es₁ ++ acceptedBytes es₂ :=
  List.flatMap_append

namespace ConnIo

variable {Ch : Type}

/-- `c'` is `c` after calls that queued `fs` and did `es`, and that changed nothing of any
    other connection. -/
structure Extends (c c' : ConnIo Ch) (fs : List ConnFunctor) (es : List ConnEvent) : Prop where
  ptr : c'.ptr = c.ptr
  fd : c'.conn.channel_.fd_ = c.conn.channel_.fd_
  tied : c'.conn.channel_.tied_ = c.conn.channel_.tied_
  revents : c'.conn.channel_.revents_ = c.conn.channel_.revents_
  others : c.poller.SameExcept c'.poller c.conn.channel_.fd_
  queue : c'.queue = c.queue ++ fs.map (c.ptr, ·)
  trace : c'.trace = c.trace ++ es

theorem Extends.refl (c : ConnIo Ch) : Extends c c [] [] :=
  ⟨rfl, rfl, rfl, rfl, ⟨fun _ _ => rfl, fun _ _ => rfl⟩, by simp, by simp⟩

theorem Extends.trans {c₁ c₂ c₃ : ConnIo Ch} {fs₁ fs₂ : List ConnFunctor}
    {es₁ es₂ : List ConnEvent} (h₁ : Extends c₁ c₂ fs₁ es₁) (h₂ : Extends c₂ c₃ fs₂ es₂) :
    Extends c₁ c₃ (fs₁ ++ fs₂) (es₁ ++ es₂) where
  ptr := h₂.ptr.trans h₁.ptr
  fd := h₂.fd.trans h₁.fd
  tied := h₂.tied.trans h₁.tied
  revents := h₂.revents.trans h₁.revents
  others := h₁.others.trans (h₁.fd ▸ h₂.others)
  queue := by rw [h₂.queue, h₁.queue, h₁.ptr, List.map_append, List.append_assoc]
  trace := by rw [h₂.trace, h₁.trace, List.append_assoc]

theorem Extends.record (c : ConnIo Ch) (e : ConnEvent) : Extends c (c.record e) [] [e] :=
  ⟨rfl, rfl, rfl, rfl, ⟨fun _ _ => rfl, fun _ _ => rfl⟩, by simp [ConnIo.record], rfl⟩

theorem Extends.queueInLoop (c : ConnIo Ch) (f : ConnFunctor) :
    Extends c (c.queueInLoop f) [f] [] :=
  ⟨rfl, rfl, rfl, rfl, ⟨fun _ _ => rfl, fun _ _ => rfl⟩, rfl, by simp [ConnIo.queueInLoop]⟩

theorem Extends.setState (c : ConnIo Ch) (state : StateE) : Extends c (c.setState state) [] [] :=
  ⟨rfl, rfl, rfl, rfl, ⟨fun _ _ => rfl, fun _ _ => rfl⟩, by simp [ConnIo.setState],
    by simp [ConnIo.setState]⟩

theorem Extends.setOutputBuffer (c : ConnIo Ch) (buffer : Buffer) :
    Extends c (c.setOutputBuffer buffer) [] [] :=
  ⟨rfl, rfl, rfl, rfl, ⟨fun _ _ => rfl, fun _ _ => rfl⟩, by simp [ConnIo.setOutputBuffer],
    by simp [ConnIo.setOutputBuffer]⟩

theorem Extends.setInputBuffer (c : ConnIo Ch) (buffer : Buffer) :
    Extends c (c.setInputBuffer buffer) [] [] :=
  ⟨rfl, rfl, rfl, rfl, ⟨fun _ _ => rfl, fun _ _ => rfl⟩, by simp [ConnIo.setInputBuffer],
    by simp [ConnIo.setInputBuffer]⟩

@[simp] theorem conn_record (c : ConnIo Ch) (e : ConnEvent) : (c.record e).conn = c.conn := rfl

/-! ## §2 The channel -/

/-- The poller holds what the connection's channel says. -/
def Agrees (c : ConnIo Ch) : Prop := c.poller.Agrees c.ptr c.conn.channel_

/-- The channel after its mask was set and it was updated. -/
def updatedChannel (channel : Channel) (events : EventMask) : Channel :=
  { channel with
    events_ := events
    index_ := EPollPoller.updatedIndex channel.index_ events }

/-- `setEvents` on a channel that agrees with the poller. -/
theorem setEvents_spec {c : ConnIo Ch} (h : c.Agrees) (events : EventMask) :
    ∃ c', c.setEvents events = some c' ∧ c'.Agrees ∧ Extends c c' [] [] ∧
      c'.conn = { c.conn with channel_ := updatedChannel c.conn.channel_ events } := by
  obtain ⟨q, hupdate, hagrees, hsame⟩ := EPollPoller.updateChannel_spec h events
  refine ⟨c.setPolled (q, updatedChannel c.conn.channel_ events), ?_, hagrees,
    ⟨rfl, rfl, rfl, rfl, hsame, by simp [setPolled], by simp [setPolled]⟩, rfl⟩
  simp only [setEvents, hupdate, Option.bind_eq_bind, Option.bind_some]
  rfl

/-- `remove` on a channel that agrees with the poller. -/
theorem removeChannel_spec {c : ConnIo Ch} (h : c.Agrees) :
    ∃ c', c.removeChannel = some c' ∧ c'.Agrees ∧ Extends c c' [] [] ∧
      c'.conn = { c.conn with channel_ := { c.conn.channel_ with index_ := .kNew } } := by
  obtain ⟨q, hremove, hagrees, hsame⟩ := EPollPoller.removeChannel_spec h
  refine ⟨c.setPolled (q, { c.conn.channel_ with index_ := .kNew }), ?_, hagrees,
    ⟨rfl, rfl, rfl, rfl, hsame, by simp [setPolled], by simp [setPolled]⟩, rfl⟩
  simp only [removeChannel, hremove, Option.bind_eq_bind, Option.bind_some]

/-- An open connection: registered, reading, and interested in writing exactly when bytes
    wait in the output buffer. -/
structure Open (c : ConnIo Ch) : Prop where
  agrees : c.Agrees
  added : c.conn.channel_.index_ = .kAdded
  events : c.conn.channel_.events_ =
    if c.conn.outputBuffer_.readable = [] then kReadEvent else kReadEvent ||| kWriteEvent
  outputWF : c.conn.outputBuffer_.WF
  inputWF : c.conn.inputBuffer_.WF

theorem Open.isWriting_iff {c : ConnIo Ch} (h : Open c) :
    c.conn.channel_.isWriting = true ↔ c.conn.outputBuffer_.readable ≠ [] := by
  unfold Channel.isWriting
  rw [h.events]
  split
  · rename_i hempty
    exact iff_of_false (by decide) (fun hne => hne hempty)
  · rename_i hne
    exact iff_of_true (by decide) hne

theorem Open.isWriting_eq_false {c : ConnIo Ch} (h : Open c)
    (hempty : c.conn.outputBuffer_.readable = []) : c.conn.channel_.isWriting = false := by
  apply Bool.eq_false_iff.mpr
  intro hwriting
  exact h.isWriting_iff.mp hwriting hempty

theorem Open.idle_iff {c : ConnIo Ch} (h : Open c) :
    c.idle = true ↔ c.conn.outputBuffer_.readable = [] := by
  constructor
  · intro hidle
    simp only [idle, Bool.and_eq_true, decide_eq_true_eq] at hidle
    exact h.outputWF.readable_eq_nil_iff.mpr hidle.2
  · intro hempty
    simp only [idle, h.isWriting_eq_false hempty, h.outputWF.readable_eq_nil_iff.mp hempty]
    rfl

/-- What `Open` reads is not changed by notes, queued functors and the state. -/
theorem Open.record {c : ConnIo Ch} (h : Open c) (e : ConnEvent) : Open (c.record e) :=
  ⟨h.agrees, h.added, h.events, h.outputWF, h.inputWF⟩

theorem Open.queueInLoop {c : ConnIo Ch} (h : Open c) (f : ConnFunctor) :
    Open (c.queueInLoop f) :=
  ⟨h.agrees, h.added, h.events, h.outputWF, h.inputWF⟩

theorem Open.setState {c : ConnIo Ch} (h : Open c) (state : StateE) : Open (c.setState state) :=
  ⟨h.agrees, h.added, h.events, h.outputWF, h.inputWF⟩

theorem Open.setRevents {c : ConnIo Ch} (h : Open c) (revents : EventMask) :
    Open (c.setRevents revents) :=
  ⟨⟨h.agrees.interest_eq, h.agrees.channels_eq⟩, h.added, h.events, h.outputWF, h.inputWF⟩

/-- `c'` is `c` with user callbacks queued. -/
structure QueuesUser (c c' : ConnIo Ch) (fs : List ConnFunctor) : Prop where
  ext : Extends c c' fs []
  user : ∀ f ∈ fs, f.isUser = true
  conn : c'.conn = c.conn
  poller : c'.poller = c.poller

theorem QueuesUser.isOpen {c c' : ConnIo Ch} {fs : List ConnFunctor} (h : QueuesUser c c' fs)
    (hopen : Open c) : Open c' := by
  obtain ⟨hagrees, hadded, hevents, hout, hin⟩ := hopen
  refine ⟨?_, h.conn ▸ hadded, h.conn ▸ hevents, h.conn ▸ hout, h.conn ▸ hin⟩
  rw [Agrees, h.conn, h.poller, h.ext.ptr]
  exact hagrees

theorem queueWriteComplete_spec (c : ConnIo Ch) : ∃ fs, QueuesUser c c.queueWriteComplete fs := by
  unfold queueWriteComplete
  split
  · exact ⟨_, Extends.queueInLoop c _, by simp [ConnFunctor.isUser], rfl, rfl⟩
  · exact ⟨[], Extends.refl c, by simp, rfl, rfl⟩

theorem queueHighWaterMark_spec (c : ConnIo Ch) (remaining : Nat) :
    ∃ fs, QueuesUser c (c.queueHighWaterMark remaining) fs := by
  simp only [queueHighWaterMark]
  split
  · exact ⟨_, Extends.queueInLoop c _, by simp [ConnFunctor.isUser], rfl, rfl⟩
  · exact ⟨[], Extends.refl c, by simp, rfl, rfl⟩

/-! ## §3 The interest in writing -/

/-- Bytes come to wait: the channel becomes interested in writing unless it is already. -/
theorem enableWriting_spec {c : ConnIo Ch} (h : Open c) {buffer : Buffer} (hwf : buffer.WF)
    (hne : buffer.readable ≠ []) :
    ∃ c', (if !c.conn.channel_.isWriting then (c.setOutputBuffer buffer).enableWriting
        else some (c.setOutputBuffer buffer)) = some c' ∧
      Extends c c' [] [] ∧ Open c' ∧ c'.conn.state_ = c.conn.state_ ∧
      c'.conn.outputBuffer_ = buffer := by
  have hext := Extends.setOutputBuffer c buffer
  cases hwriting : c.conn.channel_.isWriting with
  | true =>
    -- bytes waited before, so the mask has the write bit already
    have hevents := h.events
    rw [if_neg (h.isWriting_iff.mp hwriting)] at hevents
    refine ⟨_, rfl, hext, ⟨h.agrees, h.added, ?_, hwf, h.inputWF⟩, rfl, rfl⟩
    exact hevents.trans (if_neg hne).symm
  | false =>
    -- nothing waited: the mask is read-only, and `update` is called with the new one
    have hempty : c.conn.outputBuffer_.readable = [] := by
      by_contra hfull
      rw [h.isWriting_iff.mpr hfull] at hwriting
      cases hwriting
    have hevents := h.events
    rw [if_pos hempty] at hevents
    have hmask : (c.setOutputBuffer buffer).conn.channel_.events_ ||| kWriteEvent =
        kReadEvent ||| kWriteEvent := by
      rw [← hevents]
      rfl
    obtain ⟨c', hset, hagrees, hext', hconn⟩ := setEvents_spec
      (show (c.setOutputBuffer buffer).Agrees from h.agrees) (kReadEvent ||| kWriteEvent)
    refine ⟨c', ?_, hext.trans hext', ⟨hagrees, ?_, ?_, ?_, ?_⟩, ?_, ?_⟩
    · simp only [enableWriting, hmask]
      exact hset
    · rw [hconn]
      exact if_neg (fun hnone => absurd hnone.2 (by decide))
    · rw [hconn]
      exact (if_neg hne).symm
    · rw [hconn]
      exact hwf
    · rw [hconn]
      exact h.inputWF
    · rw [hconn]
      rfl
    · rw [hconn]
      rfl

/-- The last waiting byte is gone: the channel loses its interest in writing. -/
theorem disableWriting_spec {c : ConnIo Ch} (h : Open c)
    (hwriting : c.conn.channel_.isWriting = true) {buffer : Buffer} (hwf : buffer.WF)
    (hempty : buffer.readable = []) :
    ∃ c', (c.setOutputBuffer buffer).disableWriting = some c' ∧ Extends c c' [] [] ∧ Open c' ∧
      c'.conn.state_ = c.conn.state_ ∧ c'.conn.outputBuffer_ = buffer := by
  have hevents := h.events
  rw [if_neg (h.isWriting_iff.mp hwriting)] at hevents
  -- clearing the write bit leaves the read bit alone
  have hmask : (c.setOutputBuffer buffer).conn.channel_.events_ &&& ~~~kWriteEvent =
      kReadEvent := by
    show c.conn.channel_.events_ &&& ~~~kWriteEvent = kReadEvent
    rw [hevents]
    decide
  obtain ⟨c', hset, hagrees, hext', hconn⟩ := setEvents_spec
    (show (c.setOutputBuffer buffer).Agrees from h.agrees) kReadEvent
  refine ⟨c', ?_, (Extends.setOutputBuffer c buffer).trans hext', ⟨hagrees, ?_, ?_, ?_, ?_⟩,
    ?_, ?_⟩
  · simp only [disableWriting, hmask]
    exact hset
  · rw [hconn]
    exact if_neg (fun hnone => absurd hnone.2 (by decide))
  · rw [hconn]
    exact (if_pos hempty).symm
  · rw [hconn]
    exact hwf
  · rw [hconn]
    exact h.inputWF
  · rw [hconn]
    rfl
  · rw [hconn]
    rfl

/-! ## §4 Sending -/

/-- The end of `sendInLoop` puts the rest behind the bytes that wait. -/
theorem bufferRemaining_spec {c : ConnIo Ch} (h : Open c) (rest : List Byte) :
    ∃ c' fs, c.bufferRemaining rest = some c' ∧ Extends c c' fs [] ∧
      (∀ f ∈ fs, f.isUser = true) ∧ Open c' ∧ c'.conn.state_ = c.conn.state_ ∧
      c'.conn.outputBuffer_.readable = c.conn.outputBuffer_.readable ++ rest := by
  unfold bufferRemaining
  by_cases hpos : rest.length > 0
  · rw [if_pos hpos]
    obtain ⟨fs, hqueue⟩ := c.queueHighWaterMark_spec rest.length
    obtain ⟨buffer, happend, hwf, hreadable⟩ := Buffer.append_spec h.outputWF rest
    have hne : buffer.readable ≠ [] := by
      rw [hreadable]
      exact List.append_ne_nil_of_right_ne_nil _ (List.ne_nil_of_length_pos hpos)
    obtain ⟨c', hwrite, hext, hopen, hstate, hbuffer⟩ :=
      enableWriting_spec (hqueue.isOpen h) hwf hne
    refine ⟨c', fs ++ [], ?_, hqueue.ext.trans hext, by simpa using hqueue.user, hopen, ?_, ?_⟩
    · simp only [hqueue.conn, happend, Option.bind_eq_bind, Option.bind_some]
      rw [hqueue.conn] at hwrite
      simpa [setOutputBuffer, hqueue.conn] using hwrite
    · rw [hstate, hqueue.conn]
    · rw [hbuffer, hreadable]
  · rw [if_neg hpos]
    have hnil : rest = [] := List.length_eq_zero_iff.mp (by omega)
    exact ⟨c, [], rfl, Extends.refl c, by simp, h, rfl, by simp [hnil]⟩

/-- **`sendInLoop` on an open connection.** It issues at most one `::write`; unless that one
    met a fault error, what the socket accepted and what waits now are what waited before
    followed by the data. -/
theorem sendInLoop_spec {c : ConnIo Ch} (h : Open c) (data : List Byte) (w : WriteResult) :
    ∃ c' fs es, c.sendInLoop data w = some c' ∧ Extends c c' fs es ∧
      (∀ f ∈ fs, f.isUser = true) ∧ (es = [] ∨ ∃ accepted, es = [.write accepted]) ∧ Open c' ∧
      c'.conn.state_ = c.conn.state_ ∧
      (w.isFault = false → acceptedBytes es ++ c'.conn.outputBuffer_.readable =
        c.conn.outputBuffer_.readable ++ data) := by
  unfold sendInLoop
  by_cases hidle : c.idle = true
  · rw [if_pos hidle]
    have hempty := h.idle_iff.mp hidle
    cases w with
    | accepted n =>
      -- the direct route: the socket takes a prefix, the rest waits
      obtain ⟨c₁, fs₁, hc₁, hext₁, huser₁, hopen₁, hconn₁⟩ : ∃ (c₁ : ConnIo Ch) (fs₁ : _),
          (if data.length - n = 0 then (c.record (.write (data.take n))).queueWriteComplete
            else c.record (.write (data.take n))) = c₁ ∧
          Extends c c₁ fs₁ [.write (data.take n)] ∧ (∀ f ∈ fs₁, f.isUser = true) ∧ Open c₁ ∧
          c₁.conn = c.conn := by
        have hrecord := Extends.record c (.write (data.take n))
        obtain ⟨fs, hqueue⟩ := (c.record (.write (data.take n))).queueWriteComplete_spec
        by_cases hall : data.length - n = 0
        · exact ⟨_, fs, if_pos hall, hrecord.trans hqueue.ext, hqueue.user,
            hqueue.isOpen (h.record _), hqueue.conn⟩
        · exact ⟨_, [], if_neg hall, hrecord, by simp, h.record _, rfl⟩
      obtain ⟨c', fs, hbuffer, hext, huser, hopen, hstate, hreadable⟩ :=
        bufferRemaining_spec hopen₁ (data.drop n)
      refine ⟨c', fs₁ ++ fs, _, ?_, hext₁.trans hext, ?_, .inr ⟨_, rfl⟩, hopen, ?_, ?_⟩
      · simp only [hc₁]
        exact hbuffer
      · intro f hf
        exact (List.mem_append.mp hf).elim (huser₁ f) (huser f)
      · rw [hstate, hconn₁]
      · intro _
        rw [hreadable, hconn₁, hempty]
        simp [acceptedBytes]
    | error errno =>
      have hrecord := Extends.record c (.write [])
      by_cases hfault : errno.isFault = true
      · refine ⟨_, [], _, if_pos hfault, hrecord, by simp, .inr ⟨_, rfl⟩, h.record _, rfl, ?_⟩
        intro hno
        rw [WriteResult.isFault, hfault] at hno
        cases hno
      · obtain ⟨c', fs, hbuffer, hext, huser, hopen, hstate, hreadable⟩ :=
          bufferRemaining_spec (h.record (.write [])) data
        refine ⟨c', _, _, ?_, hrecord.trans hext, huser, .inr ⟨_, rfl⟩, hopen, hstate, ?_⟩
        · simp only [if_neg hfault]
          exact hbuffer
        · intro _
          rw [hreadable]
          rfl
  · -- earlier bytes wait, so these wait behind them
    rw [if_neg hidle]
    obtain ⟨c', fs, hbuffer, hext, huser, hopen, hstate, hreadable⟩ := bufferRemaining_spec h data
    refine ⟨c', fs, [], hbuffer, hext, huser, .inl rfl, hopen, hstate, ?_⟩
    intro _
    rw [hreadable]
    rfl

/-- What `handleWrite` does: what the socket accepted and what waits now are what waited
    before; a `shutdownWrite` follows only when `shutdown` came earlier and nothing waits any
    more. -/
structure Drained (c c' : ConnIo Ch) (fs : List ConnFunctor) (es : List ConnEvent) : Prop where
  ext : Extends c c' fs es
  user : ∀ f ∈ fs, f.isUser = true
  isOpen : Open c'
  state : c'.conn.state_ = c.conn.state_
  bytes : acceptedBytes es ++ c'.conn.outputBuffer_.readable = c.conn.outputBuffer_.readable
  events : es = [] ∨ (∃ accepted, es = [.write accepted]) ∨
    ∃ accepted, es = [.write accepted, .shutdownWrite] ∧ c.conn.state_ = .kDisconnecting ∧
      c.conn.outputBuffer_.readable ≠ [] ∧ c'.conn.outputBuffer_.readable = []

/-- `shutdownInLoop` shuts down when nothing waits. -/
theorem shutdownInLoop_of_empty {c : ConnIo Ch} (h : Open c)
    (hempty : c.conn.outputBuffer_.readable = []) : c.shutdownInLoop = c.record .shutdownWrite := by
  rw [shutdownInLoop, h.isWriting_eq_false hempty]
  rfl

/-- `shutdownInLoop` leaves it to `handleWrite` when bytes wait. -/
theorem shutdownInLoop_of_waiting {c : ConnIo Ch} (h : Open c)
    (hne : c.conn.outputBuffer_.readable ≠ []) : c.shutdownInLoop = c := by
  rw [shutdownInLoop, h.isWriting_iff.mpr hne]
  rfl

/-- **`handleWrite` on an open connection.** -/
theorem handleWrite_spec {c : ConnIo Ch} (h : Open c) (w : WriteResult) :
    ∃ c' fs es, c.handleWrite w = some c' ∧ Drained c c' fs es := by
  unfold handleWrite
  by_cases hwriting : c.conn.channel_.isWriting = true
  · rw [if_pos hwriting]
    have hnone : Drained c (c.record (.write [])) [] [.write []] :=
      ⟨Extends.record c _, by simp, h.record _, rfl, rfl, .inr (.inl ⟨_, rfl⟩)⟩
    cases w with
    | error errno => exact ⟨_, _, _, rfl, hnone⟩
    | accepted n =>
      by_cases hn : n > 0
      · simp only [if_pos hn]
        have hwaiting := h.isWriting_iff.mp hwriting
        have hrecord := Extends.record c (.write (c.conn.outputBuffer_.readable.take n))
        have hopen := h.record (.write (c.conn.outputBuffer_.readable.take n))
        have hwf := h.outputWF.retrieve n
        have hreadable := Buffer.readable_retrieve h.outputWF n
        -- what goes out and what stays is what waited
        have hbytes : acceptedBytes [.write (c.conn.outputBuffer_.readable.take n)] ++
            (c.conn.outputBuffer_.retrieve n).readable = c.conn.outputBuffer_.readable := by
          rw [hreadable]
          simp [acceptedBytes]
        by_cases hempty : (c.conn.outputBuffer_.retrieve n).readable = []
        · -- the buffer is drained: the interest goes, and a deferred shutdown happens now
          obtain ⟨c₁, hdisable, hext₁, hopen₁, hstate₁, hbuffer₁⟩ :=
            disableWriting_spec hopen hwriting hwf hempty
          obtain ⟨fs, hqueue⟩ := c₁.queueWriteComplete_spec
          have hopen₂ := hqueue.isOpen hopen₁
          have hempty₂ : c₁.queueWriteComplete.conn.outputBuffer_.readable = [] := by
            rw [hqueue.conn, hbuffer₁, hempty]
          have hstate₂ : c₁.queueWriteComplete.conn.state_ = c.conn.state_ := by
            rw [hqueue.conn, hstate₁]
            rfl
          have hext₂ := (hrecord.trans hext₁).trans hqueue.ext
          rw [hempty] at hbytes
          by_cases hdisc : c.conn.state_ = .kDisconnecting
          · refine ⟨c₁.queueWriteComplete.record .shutdownWrite, _, _, ?_,
              hext₂.trans (Extends.record _ _), by simpa using hqueue.user, hopen₂.record _,
              hstate₂, ?_, ?_⟩
            · refine (if_pos (hwf.readable_eq_nil_iff.mp hempty)).trans ?_
              simp only [conn_record, hdisable, Option.bind_eq_bind, Option.bind_some, hstate₂,
                if_pos hdisc, shutdownInLoop_of_empty hopen₂ hempty₂]
            · show _ ++ c₁.queueWriteComplete.conn.outputBuffer_.readable = _
              rw [hempty₂]
              simpa [acceptedBytes] using hbytes
            · exact .inr (.inr ⟨_, rfl, hdisc, hwaiting, hempty₂⟩)
          · refine ⟨c₁.queueWriteComplete, _, _, ?_, hext₂, by simpa using hqueue.user, hopen₂,
              hstate₂, ?_, .inr (.inl ⟨_, rfl⟩)⟩
            · refine (if_pos (hwf.readable_eq_nil_iff.mp hempty)).trans ?_
              simp only [conn_record, hdisable, Option.bind_eq_bind, Option.bind_some, hstate₂,
                if_neg hdisc]
            · rw [hempty₂]
              simpa [acceptedBytes] using hbytes
        · -- bytes still wait, and the channel stays interested
          have hevents := h.events
          rw [if_neg hwaiting] at hevents
          refine ⟨_, _, _, if_neg (fun hzero => hempty (hwf.readable_eq_nil_iff.mpr hzero)),
            hrecord.trans (Extends.setOutputBuffer _ _), by simp, ?_, rfl, hbytes,
            .inr (.inl ⟨_, rfl⟩)⟩
          exact ⟨h.agrees, h.added, hevents.trans (if_neg hempty).symm, hwf, h.inputWF⟩
      · simp only [if_neg hn]
        exact ⟨_, _, _, rfl, hnone⟩
  · rw [if_neg hwriting]
    exact ⟨c, [], [], rfl, Extends.refl c, by simp, h, rfl, rfl, .inl rfl⟩

/-! ## §5 Establishing and closing -/

/-- `connectEstablished` opens a new connection. -/
theorem connectEstablished_spec {c : ConnIo Ch} (h : c.Agrees)
    (hevents : c.conn.channel_.events_ = 0)
    (hempty : c.conn.outputBuffer_.readable = []) (hout : c.conn.outputBuffer_.WF)
    (hin : c.conn.inputBuffer_.WF) :
    ∃ c', c.connectEstablished = some c' ∧ Open c' ∧ c'.conn.state_ = .kConnected ∧
      c'.ptr = c.ptr ∧ c'.conn.channel_.fd_ = c.conn.channel_.fd_ ∧
      c'.conn.channel_.tied_ = true ∧
      c.poller.SameExcept c'.poller c.conn.channel_.fd_ ∧ c'.queue = c.queue ∧
      c'.trace = c.trace ++ [.connectionCallback true] ∧
      c'.conn.outputBuffer_.readable = [] := by
  -- the mask of a new channel is empty
  have hmask : ((c.setState .kConnected).tie).conn.channel_.events_ ||| kReadEvent =
      kReadEvent := by
    show c.conn.channel_.events_ ||| kReadEvent = kReadEvent
    rw [hevents]
    decide
  have hagrees₀ : ((c.setState .kConnected).tie).Agrees := by
    obtain ⟨hinterest, hchannels⟩ := h
    exact ⟨hinterest, hchannels⟩
  obtain ⟨c', hset, hagrees, hext, hconn⟩ := setEvents_spec hagrees₀ kReadEvent
  have hconnected : c'.connected = true := by
    rw [connected, hconn]
    rfl
  refine ⟨c'.record (.connectionCallback true), ?_, ⟨hagrees, ?_, ?_, ?_, ?_⟩, ?_, hext.ptr,
    hext.fd, hext.tied, hext.others, ?_, ?_, ?_⟩
  · simp only [connectEstablished, enableReading, hmask, hset, Option.bind_eq_bind,
      Option.bind_some, hconnected]
  · rw [conn_record, hconn]
    exact if_neg (fun hnone => absurd hnone.2 (by decide))
  · rw [conn_record, hconn]
    exact (if_pos hempty).symm
  · rw [conn_record, hconn]
    exact hout
  · rw [conn_record, hconn]
    exact hin
  · rw [conn_record, hconn]
    rfl
  · exact hext.queue.trans (List.append_nil _)
  · show c'.trace ++ _ = _
    rw [hext.trace, List.append_nil]
    rfl
  · rw [conn_record, hconn]
    exact hempty

/-- A connection whose channel is registered nowhere. -/
structure Closed (c : ConnIo Ch) : Prop where
  agrees : c.Agrees
  not_added : c.conn.channel_.index_ ≠ .kAdded
  events : c.conn.channel_.events_ = kNoneEvent
  inputWF : c.conn.inputBuffer_.WF

/-- **A close** of an open connection: the user hears of it and the channel leaves the
    interest list. -/
theorem disconnect_spec {c : ConnIo Ch} (h : Open c) :
    ∃ c', c.disconnect = some c' ∧ Closed c' ∧ c'.conn.state_ = .kDisconnected ∧
      c'.conn.channel_.index_ = .kDeleted ∧
      Extends c c' [] [.disconnected, .connectionCallback false] := by
  have hagrees₀ : ((c.setState .kDisconnected).record .disconnected).Agrees := h.agrees
  obtain ⟨c', hset, hagrees, hext, hconn⟩ := setEvents_spec hagrees₀ kNoneEvent
  have hindex : c'.conn.channel_.index_ = .kDeleted := by
    rw [hconn]
    exact if_pos ⟨h.added, rfl⟩
  have hconnected : c'.connected = false := by
    rw [connected, hconn]
    rfl
  refine ⟨c'.record (.connectionCallback false), ?_, ⟨hagrees, ?_, ?_, ?_⟩, ?_, hindex, ?_⟩
  · simp only [disconnect, disableAll, hset, Option.bind_eq_bind, Option.bind_some, hconnected]
  · rw [conn_record, hindex]
    nofun
  · rw [conn_record, hconn]
    rfl
  · rw [conn_record, hconn]
    exact h.inputWF
  · rw [conn_record, hconn]
    rfl
  · exact (((Extends.setState c _).trans (Extends.record _ _)).trans hext).trans
      (Extends.record _ _)

/-- `connectDestroyed` of a closed connection takes its channel out of the poller. -/
theorem connectDestroyed_spec {c : ConnIo Ch} (h : Closed c)
    (hstate : c.conn.state_ ≠ .kConnected) :
    ∃ c', c.connectDestroyed = some c' ∧ Closed c' ∧ c'.conn.state_ = c.conn.state_ ∧
      c'.conn.channel_.index_ = .kNew ∧ Extends c c' [] [] := by
  obtain ⟨c', hremove, hagrees, hext, hconn⟩ := removeChannel_spec h.agrees
  refine ⟨c', ?_, ⟨hagrees, ?_, ?_, ?_⟩, ?_, ?_, hext⟩
  · simp only [connectDestroyed, if_neg hstate, Option.bind_eq_bind, Option.bind_some]
    exact hremove
  · rw [hconn]
    nofun
  · rw [hconn]
    exact h.events
  · rw [hconn]
    exact h.inputWF
  · rw [hconn]
  · rw [hconn]

/-- On a closed connection the write callback finds nothing to do. -/
theorem handleWrite_of_closed {c : ConnIo Ch} (h : Closed c) (w : WriteResult) :
    c.handleWrite w = some c := by
  apply if_neg
  rw [Channel.isWriting, h.events]
  decide

end ConnIo

end RainWebServer.Net
