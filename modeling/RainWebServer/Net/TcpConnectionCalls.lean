import RainWebServer.Net.TcpConnectionSteps

/-!
# Calls on an Open Connection, Exactly

What `RainWebServer.Net.TcpConnectionSteps` leaves open about `sendInLoop` and `handleWrite`: which
functors they queue, how many bytes `handleWrite` takes from the output buffer, and what they
leave alone.

## Main results

- `sendInLoop_refused`, `handleWrite_refused` : a socket that takes nothing gets nothing
- `sendInLoop_queue`, `handleWrite_queue` : which callbacks of the user a call queues
-/

namespace RainWebServer.Net

/-- The socket takes at least one byte. -/
def WriteResult.accepts : WriteResult → Bool
  | .accepted n => decide (0 < n)
  | .error _ => false

/-! ## §1 What a socket refuses -/

/-- The socket takes `len` bytes, which is all. -/
def WriteResult.takes (len : Nat) : WriteResult → Bool
  | .accepted n => decide (len ≤ n)
  | .error _ => false

/-- How many bytes the socket takes. -/
def WriteResult.count : WriteResult → Nat
  | .accepted n => n
  | .error _ => 0

namespace ConnIo

variable {Ch : Type} {c c' : ConnIo Ch}

theorem acceptedBytes_write_nil : acceptedBytes [.write []] = [] := rfl

/-- Through a `send` whose `::write` takes nothing, no byte reaches the socket. -/
theorem sendInLoop_refused (h : c.Open) {data : List Byte} {w : WriteResult}
    (hw : w.accepts = false) (hsend : c.sendInLoop data w = some c') :
    acceptedBytes c'.trace = acceptedBytes c.trace := by
  have hrest : ∀ {c₁ : ConnIo Ch} {rest : List Byte}, c₁.Open → c₁.bufferRemaining rest = some c' →
      c'.trace = c₁.trace := by
    intro c₁ rest hopen hbuffer
    obtain ⟨c₂, fs, hcall, hext, -⟩ := bufferRemaining_spec hopen rest
    rw [hbuffer, Option.some.injEq] at hcall
    rw [hcall, hext.trace, List.append_nil]
  unfold sendInLoop at hsend
  by_cases hidle : c.idle = true
  · rw [if_pos hidle] at hsend
    cases w with
    | accepted n =>
      -- the answer is zero: all of the data remains
      obtain rfl : n = 0 := by simpa [WriteResult.accepts] using hw
      obtain ⟨fs, hqueue⟩ := (c.record (.write (data.take 0))).queueWriteComplete_spec
      have htrace : c'.trace = c.trace ++ [.write []] := by
        simp only at hsend
        split at hsend
        · rw [hrest (hqueue.isOpen (h.record _)) hsend, hqueue.ext.trace, List.append_nil]
          rfl
        · rw [hrest (h.record _) hsend]
          rfl
      rw [htrace, acceptedBytes_append, acceptedBytes_write_nil, List.append_nil]
    | error errno =>
      have htrace : c'.trace = c.trace ++ [.write []] := by
        simp only at hsend
        split at hsend
        · rw [Option.some.injEq] at hsend
          exact hsend ▸ rfl
        · rw [hrest (h.record _) hsend]
          rfl
      rw [htrace, acceptedBytes_append, acceptedBytes_write_nil, List.append_nil]
  · rw [if_neg hidle] at hsend
    rw [hrest h hsend]

/-- The same for the `::write` of `handleWrite`. -/
theorem handleWrite_refused {w : WriteResult} (hw : w.accepts = false)
    (hwrite : c.handleWrite w = some c') :
    acceptedBytes c'.trace = acceptedBytes c.trace := by
  have hnone : acceptedBytes (c.record (.write [])).trace = acceptedBytes c.trace := by
    rw [record, acceptedBytes_append, acceptedBytes_write_nil, List.append_nil]
  unfold handleWrite at hwrite
  split at hwrite
  · cases w with
    | accepted n =>
      have hn : ¬n > 0 := by simpa [WriteResult.accepts] using hw
      simp only [if_neg hn, Option.some.injEq] at hwrite
      exact hwrite ▸ hnone
    | error errno =>
      rw [Option.some.injEq] at hwrite
      exact hwrite ▸ hnone
  · rw [Option.some.injEq] at hwrite
    rw [hwrite]

/-! ## §2 What stays as it is -/

/-- Sending leaves the input buffer alone, and what the user has set. -/
structure KeepsSetup (c c' : ConnIo Ch) : Prop where
  input : c'.conn.inputBuffer_ = c.conn.inputBuffer_
  mark : c'.conn.highWaterMark_ = c.conn.highWaterMark_
  writeComplete : c'.conn.writeCompleteCallback_ = c.conn.writeCompleteCallback_
  highWaterMark : c'.conn.highWaterMarkCallback_ = c.conn.highWaterMarkCallback_

theorem KeepsSetup.trans {c₁ c₂ c₃ : ConnIo Ch} (h₁ : KeepsSetup c₁ c₂) (h₂ : KeepsSetup c₂ c₃) :
    KeepsSetup c₁ c₃ :=
  ⟨h₂.input.trans h₁.input, h₂.mark.trans h₁.mark, h₂.writeComplete.trans h₁.writeComplete,
    h₂.highWaterMark.trans h₁.highWaterMark⟩

theorem setEvents_keeps {events : EventMask} (h : c.setEvents events = some c') :
    KeepsSetup c c' ∧ c'.queue = c.queue ∧ c'.ptr = c.ptr := by
  obtain ⟨polled, -, h⟩ := Option.bind_eq_some_iff.mp h
  cases h
  exact ⟨⟨rfl, rfl, rfl, rfl⟩, rfl, rfl⟩

theorem connectEstablished_keeps (h : c.connectEstablished = some c') : KeepsSetup c c' := by
  obtain ⟨c₁, hset, h⟩ := Option.bind_eq_some_iff.mp h
  cases h
  obtain ⟨hkeeps, -⟩ := setEvents_keeps hset
  exact ⟨hkeeps.input, hkeeps.mark, hkeeps.writeComplete, hkeeps.highWaterMark⟩

/-- `queueWriteComplete`, exactly. -/
theorem queueWriteComplete_keeps (c : ConnIo Ch) :
    KeepsSetup c c.queueWriteComplete ∧ c.queueWriteComplete.queue = c.queue ++
      (if c.conn.writeCompleteCallback_ then [.writeCompleteCallback] else []).map (c.ptr, ·) := by
  unfold queueWriteComplete
  split
  · exact ⟨⟨rfl, rfl, rfl, rfl⟩, rfl⟩
  · exact ⟨⟨rfl, rfl, rfl, rfl⟩, (List.append_nil _).symm⟩

/-! ## §3 Callbacks of the user -/

/-- The number of bytes that wait. -/
def waiting (c : ConnIo Ch) : Nat := c.conn.outputBuffer_.readableBytes

/-- What `remaining` more bytes in the output buffer mean for the high-water mark. -/
def crossing (c : ConnIo Ch) (remaining : Nat) : List ConnFunctor :=
  if c.waiting + remaining ≥ c.conn.highWaterMark_ ∧ c.waiting < c.conn.highWaterMark_ ∧
      c.conn.highWaterMarkCallback_ then
    [.highWaterMarkCallback (c.waiting + remaining)]
  else []

theorem queueHighWaterMark_keeps (c : ConnIo Ch) (remaining : Nat) :
    KeepsSetup c (c.queueHighWaterMark remaining) ∧ (c.queueHighWaterMark remaining).queue =
      c.queue ++ (c.crossing remaining).map (c.ptr, ·) := by
  unfold queueHighWaterMark crossing waiting
  simp only
  split
  · exact ⟨⟨rfl, rfl, rfl, rfl⟩, rfl⟩
  · exact ⟨⟨rfl, rfl, rfl, rfl⟩, (List.append_nil _).symm⟩

/-- The end of `sendInLoop`. -/
theorem bufferRemaining_queue (hopen : c.Open) {rest : List Byte}
    (h : c.bufferRemaining rest = some c') :
    KeepsSetup c c' ∧ c'.waiting = c.waiting + rest.length ∧
      c'.queue = c.queue ++ (c.crossing rest.length).map (c.ptr, ·) := by
  have hwaiting : c'.waiting = c.waiting + rest.length := by
    obtain ⟨c₂, fs, hcall, -, -, hopen', -, hreadable⟩ := bufferRemaining_spec hopen rest
    rw [h, Option.some.injEq] at hcall
    subst hcall
    rw [waiting, waiting, ← hopen'.outputWF.length_readable, hreadable, List.length_append,
      hopen.outputWF.length_readable]
  obtain ⟨hmark, hqueue⟩ := c.queueHighWaterMark_keeps rest.length
  unfold bufferRemaining at h
  split at h
  · obtain ⟨buffer, -, h⟩ := Option.bind_eq_some_iff.mp h
    have hbuffer : KeepsSetup c ((c.queueHighWaterMark rest.length).setOutputBuffer buffer) :=
      ⟨hmark.input, hmark.mark, hmark.writeComplete, hmark.highWaterMark⟩
    simp only at h
    split at h
    · obtain ⟨hset, hsame, -⟩ := setEvents_keeps h
      exact ⟨hbuffer.trans hset, hwaiting, hsame.trans hqueue⟩
    · cases h
      exact ⟨hbuffer, hwaiting, hqueue⟩
  · rename_i hnone
    cases h
    refine ⟨⟨rfl, rfl, rfl, rfl⟩, hwaiting, ?_⟩
    -- no byte crosses nothing
    have hnil : c.crossing rest.length = [] := if_neg (by omega)
    rw [hnil, List.map_nil, List.append_nil]

theorem crossing_zero (c : ConnIo Ch) : c.crossing 0 = [] := if_neg (by omega)

/-- The end of `sendInLoop`, behind the `::write`. -/
theorem bufferRemaining_after {c₁ : ConnIo Ch} {fs : List ConnFunctor} {rest : List Byte}
    (hopen : c₁.Open) (hkeeps : KeepsSetup c c₁) (hwaiting : c₁.waiting = c.waiting)
    (hptr : c₁.ptr = c.ptr) (hqueue : c₁.queue = c.queue ++ fs.map (c.ptr, ·))
    (h : c₁.bufferRemaining rest = some c') :
    KeepsSetup c c' ∧ c'.waiting = c.waiting + rest.length ∧
      c'.queue = c.queue ++ (fs ++ c.crossing rest.length).map (c.ptr, ·) := by
  obtain ⟨hkeeps', hwaiting', hqueue'⟩ := bufferRemaining_queue hopen h
  have hcrossing : c₁.crossing rest.length = c.crossing rest.length := by
    rw [crossing, crossing, hwaiting, hkeeps.mark, hkeeps.highWaterMark]
  refine ⟨hkeeps.trans hkeeps', by rw [hwaiting', hwaiting], ?_⟩
  rw [hqueue', hqueue, hptr, hcrossing, List.map_append, List.append_assoc]

/-- **Which callbacks `sendInLoop` queues.** The write-complete callback, when the socket takes
    all of the data at once; the high-water-mark callback, when what remains crosses the mark. -/
theorem sendInLoop_queue (hopen : c.Open) {data : List Byte} {w : WriteResult}
    (h : c.sendInLoop data w = some c') :
    KeepsSetup c c' ∧ ∃ remaining, c'.waiting = c.waiting + remaining ∧
      (w.isFault = false → remaining = if c.idle = true then data.length - w.count
        else data.length) ∧
      c'.queue = c.queue ++ ((if c.idle = true ∧ w.takes data.length = true ∧
        c.conn.writeCompleteCallback_ = true then [ConnFunctor.writeCompleteCallback] else []) ++
        c.crossing remaining).map (c.ptr, ·) := by
  have hself : ∀ e, KeepsSetup c (c.record e) := fun _ => ⟨rfl, rfl, rfl, rfl⟩
  have hnone : ∀ e, (c.record e).queue = c.queue ++ ([] : List ConnFunctor).map (c.ptr, ·) :=
    fun _ => (List.append_nil _).symm
  unfold sendInLoop at h
  by_cases hidle : c.idle = true
  · rw [if_pos hidle] at h
    cases w with
    | accepted n =>
      have hrecord := hopen.record (.write (data.take n))
      simp only at h
      by_cases hall : data.length - n = 0
      · -- all of the data is accepted
        rw [if_pos hall] at h
        obtain ⟨fs, hfs⟩ := (c.record (.write (data.take n))).queueWriteComplete_spec
        obtain ⟨hkeeps, hqueue⟩ := (c.record (.write (data.take n))).queueWriteComplete_keeps
        have hwaiting : waiting (c.record (.write (data.take n))).queueWriteComplete =
            c.waiting := by
          rw [waiting, hfs.conn]
          rfl
        obtain ⟨hkeeps', hwaiting', hqueue'⟩ := bufferRemaining_after (hfs.isOpen hrecord)
          ((hself _).trans hkeeps) hwaiting hfs.ext.ptr hqueue h
        have htakes : WriteResult.takes data.length (.accepted n) = true :=
          decide_eq_true (by omega)
        refine ⟨hkeeps', _, hwaiting', fun _ => ?_, ?_⟩
        · rw [if_pos hidle, List.length_drop]
          rfl
        · rw [hqueue']
          simp only [hidle, htakes, true_and]
          rfl
      · rw [if_neg hall] at h
        obtain ⟨hkeeps', hwaiting', hqueue'⟩ := bufferRemaining_after (c := c) hrecord
          (hself _) rfl rfl (hnone _) h
        have htakes : ¬WriteResult.takes data.length (.accepted n) = true :=
          fun heq => hall (by have := of_decide_eq_true heq; omega)
        refine ⟨hkeeps', _, hwaiting', fun _ => ?_, ?_⟩
        · rw [if_pos hidle, List.length_drop]
          rfl
        · rw [hqueue', if_neg (fun hcond => htakes hcond.2.1)]
    | error errno =>
      have htakes : ¬WriteResult.takes data.length (.error errno) = true := Bool.false_ne_true
      simp only at h
      split at h
      · rename_i hfault
        rw [Option.some.injEq] at h
        rw [← h]
        refine ⟨hself _, 0, rfl, fun hno => ?_, ?_⟩
        · rw [WriteResult.isFault, hfault] at hno
          cases hno
        · rw [if_neg (fun hcond => htakes hcond.2.1), crossing_zero]
          exact (List.append_nil _).symm
      · obtain ⟨hkeeps', hwaiting', hqueue'⟩ := bufferRemaining_after (c := c)
          (hopen.record (.write [])) (hself _) rfl rfl (hnone _) h
        refine ⟨hkeeps', _, hwaiting', fun _ => ?_, ?_⟩
        · rw [if_pos hidle]
          rfl
        · rw [hqueue', if_neg (fun hcond => htakes hcond.2.1)]
  · rw [if_neg hidle] at h
    obtain ⟨hkeeps, hwaiting, hqueue⟩ := bufferRemaining_queue hopen h
    refine ⟨hkeeps, data.length, hwaiting, fun _ => (if_neg hidle).symm, ?_⟩
    rw [hqueue, if_neg (fun hcond => hidle hcond.1), List.nil_append]

/-- What `handleWrite` leads to when the socket takes up to `n` bytes. -/
structure Writes (c c' : ConnIo Ch) (n : Nat) : Prop where
  keeps : KeepsSetup c c'
  waiting : c'.waiting = c.waiting - n
  queue : c'.queue = c.queue ++ (if 0 < c.waiting ∧ c'.waiting = 0 ∧
    c.conn.writeCompleteCallback_ = true then [ConnFunctor.writeCompleteCallback]
    else []).map (c.ptr, ·)
  /-- A `shutdown` that has waited for the last byte. -/
  shut : 0 < c.waiting → c'.waiting = 0 → c.conn.state_ = .kDisconnecting →
    .shutdownWrite ∈ c'.trace

theorem Open.waiting_pos_iff (h : c.Open) : 0 < c.waiting ↔ c.conn.outputBuffer_.readable ≠ [] := by
  rw [waiting, ← h.outputWF.length_readable]
  exact List.length_pos_iff

/-- The last byte is taken. -/
theorem handleWrite_last (hopen : c.Open) {n : Nat} (hn : 0 < n) (hpos : 0 < c.waiting)
    (hle : c.waiting ≤ n) (h : c.handleWrite (.accepted n) = some c') : Writes c c' n := by
  have hwriting := hopen.isWriting_iff.mpr (hopen.waiting_pos_iff.mp hpos)
  have hwf := hopen.outputWF.retrieve n
  have hempty : (c.conn.outputBuffer_.retrieve n).readable = [] := by
    rw [Buffer.readable_retrieve hopen.outputWF, List.drop_eq_nil_iff,
      hopen.outputWF.length_readable]
    exact hle
  have hzero := hwf.readable_eq_nil_iff.mp hempty
  obtain ⟨c₁, hdisable, -, hopen₁, hstate₁, hbuffer⟩ :=
    disableWriting_spec (hopen.record (.write (c.conn.outputBuffer_.readable.take n))) hwriting hwf
      hempty
  obtain ⟨hkeeps₁, hqueue₁, hptr₁⟩ := setEvents_keeps hdisable
  obtain ⟨hkeeps₂, hqueue₂⟩ := c₁.queueWriteComplete_keeps
  obtain ⟨fs, hfs⟩ := c₁.queueWriteComplete_spec
  have hempty₂ : c₁.queueWriteComplete.conn.outputBuffer_.readable = [] := by
    rw [hfs.conn, hbuffer, hempty]
  -- before a deferred shutdown
  have hkeeps : KeepsSetup c c₁.queueWriteComplete :=
    ⟨hkeeps₂.input.trans hkeeps₁.input, hkeeps₂.mark.trans hkeeps₁.mark,
      hkeeps₂.writeComplete.trans hkeeps₁.writeComplete,
      hkeeps₂.highWaterMark.trans hkeeps₁.highWaterMark⟩
  have hqueue : c₁.queueWriteComplete.queue = c.queue ++
      (if c.conn.writeCompleteCallback_ = true then [ConnFunctor.writeCompleteCallback]
        else []).map (c.ptr, ·) := by
    rw [hqueue₂, hqueue₁, hptr₁, hkeeps₁.writeComplete]
    rfl
  have hdone : c₁.queueWriteComplete.waiting = 0 := by
    rw [waiting, hfs.conn, hbuffer]
    exact hzero
  have hc' : c' = if c₁.queueWriteComplete.conn.state_ = .kDisconnecting then
      c₁.queueWriteComplete.record .shutdownWrite else c₁.queueWriteComplete := by
    simp only [handleWrite, if_pos hwriting, if_pos hn] at h
    obtain ⟨c₂, hc₂, h⟩ := Option.bind_eq_some_iff.mp ((if_pos hzero).symm.trans h)
    obtain rfl : c₂ = c₁ := Option.some.inj (hc₂.symm.trans hdisable)
    rw [Option.some.injEq, shutdownInLoop_of_empty (hfs.isOpen hopen₁) hempty₂] at h
    exact h.symm
  have hstate : c₁.queueWriteComplete.conn.state_ = c.conn.state_ := by
    rw [hfs.conn, hstate₁]
    rfl
  have hsame : c'.conn = c₁.queueWriteComplete.conn ∧ c'.queue = c₁.queueWriteComplete.queue := by
    rw [hc']
    split <;> exact ⟨rfl, rfl⟩
  have hdone' : c'.waiting = 0 := by
    rw [waiting, hsame.1]
    exact hdone
  refine ⟨⟨?_, ?_, ?_, ?_⟩, by omega, ?_, fun _ _ hdisc => ?_⟩
  · rw [hsame.1]
    exact hkeeps.input
  · rw [hsame.1]
    exact hkeeps.mark
  · rw [hsame.1]
    exact hkeeps.writeComplete
  · rw [hsame.1]
    exact hkeeps.highWaterMark
  · rw [hsame.2, hqueue]
    simp only [hpos, hdone', true_and]
  · rw [hc', if_pos (hstate.trans hdisc)]
    exact List.mem_append_right _ (List.mem_singleton_self _)

/-- **Which callbacks `handleWrite` queues.** The write-complete callback, when no byte waits any
    more. -/
theorem handleWrite_queue (hopen : c.Open) {w : WriteResult} (h : c.handleWrite w = some c') :
    Writes c c' w.count := by
  -- an answer that takes nothing changes nothing that counts here
  have hrefused : ∀ e, c.record e = c' → w.count = 0 → Writes c c' w.count := by
    rintro e rfl hcount
    have hsame : (c.record e).waiting = c.waiting := rfl
    refine ⟨⟨rfl, rfl, rfl, rfl⟩, by rw [hcount, hsame, Nat.sub_zero], ?_, ?_⟩
    · rw [if_neg (fun hcond => by omega)]
      exact (List.append_nil _).symm
    · intro hpos hzero
      omega
  have hcall := h
  unfold handleWrite at h
  by_cases hwriting : c.conn.channel_.isWriting = true
  · rw [if_pos hwriting] at h
    have hpos := hopen.waiting_pos_iff.mpr (hopen.isWriting_iff.mp hwriting)
    cases w with
    | error errno => exact hrefused _ (Option.some.inj h) rfl
    | accepted n =>
      by_cases hn : n > 0
      · rcases Nat.lt_or_ge n c.waiting with hlt | hle
        · -- bytes still wait
          have hwf := hopen.outputWF.retrieve n
          have hleft : (c.conn.outputBuffer_.retrieve n).readableBytes = c.waiting - n := by
            rw [← hwf.length_readable, Buffer.readable_retrieve hopen.outputWF, List.length_drop,
              hopen.outputWF.length_readable]
            rfl
          have hne : ¬(c.conn.outputBuffer_.retrieve n).readableBytes = 0 := by omega
          simp only [if_pos hn] at h
          have hc' := Option.some.inj ((if_neg hne).symm.trans h)
          subst hc'
          refine ⟨⟨rfl, rfl, rfl, rfl⟩, hleft, ?_, fun _ hzero => absurd hzero hne⟩
          rw [if_neg (fun hcond => hne hcond.2.1)]
          exact (List.append_nil _).symm
        · exact handleWrite_last hopen hn hpos hle hcall
      · simp only [if_neg hn, Option.some.injEq] at h
        exact hrefused _ h (show n = 0 by omega)
  · rw [if_neg hwriting, Option.some.injEq] at h
    have hzero : ¬0 < c.waiting := fun hpos =>
      hwriting (hopen.isWriting_iff.mpr (hopen.waiting_pos_iff.mp hpos))
    subst h
    refine ⟨⟨rfl, rfl, rfl, rfl⟩, by omega, ?_, fun hpos => absurd hpos hzero⟩
    rw [if_neg (fun hcond => hzero hcond.1)]
    exact (List.append_nil _).symm

end ConnIo

end RainWebServer.Net
