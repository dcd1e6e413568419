import RainWebServer.Lib.Machine
import RainWebServer.Log.FixedBuffer

/-!
# AsyncLogging: the Double-Buffered Logger

Embeds `src/log/AsyncLogging.cc` as a machine whose actions are the sections that the mutex
makes atomic: a front-end `append`, and the pieces of the backend's `threadFunc` between two
points at which it takes or releases the lock.

A `unique_ptr` is an `Option`: moving out of one leaves `none` behind, and using a null one,
or taking `back()` of an empty vector, is a fault.

## Main result

`logging_reaches_conserved` : in every reachable state the bytes handed to `LogFile::append`,
followed by the buffers still to be written, are the appended lines in lock order, each line
inside one buffer; and no reachable state can fault.
-/

namespace RainWebServer.Log

open RainWebServer.Lib

/-! ## §1 The two sides of the logger -/

/-- `LargeBuffer`. -/
abbrev LargeBuffer := FixedBuffer kLargeBufferSize

/-- `std::unique_ptr<LargeBuffer>`. -/
abbrev BufferPtr := Option LargeBuffer

/-- `new LargeBuffer`, with unspecified bytes. -/
def newLargeBuffer : LargeBuffer := FixedBuffer.new (fun _ => 0xcd)

/-- The members of `AsyncLogging` that the mutex protects. -/
structure FrontEnd where
  currentBuffer_ : BufferPtr
  nextBuffer_ : BufferPtr
  buffers_ : List BufferPtr

/-- The constructor. -/
def FrontEnd.new : FrontEnd :=
  ⟨some newLargeBuffer.bzero, some newLargeBuffer.bzero, []⟩

/-- `append`, which runs under the lock. -/
def FrontEnd.append (f : FrontEnd) (logline : List Byte) : Option FrontEnd := do
  let current ← f.currentBuffer_
  if current.avail > logline.length then
    some { f with currentBuffer_ := some (current.append logline) }
  else
    let buffers := f.buffers_ ++ [some current]
    match f.nextBuffer_ with
    | some next =>
      some ⟨some (next.append logline), none, buffers⟩
    | none =>
      some ⟨some (newLargeBuffer.append logline), none, buffers⟩

/-- Where the backend thread is. -/
inductive BackEndPc where
  /-- Before `start()`. -/
  | notStarted
  /-- At the test `while (running_)`, the start of an iteration. -/
  | loopTest
  /-- Before the lock. -/
  | locking
  /-- In `cond_.wait_for`, with the lock released. -/
  | waiting
  /-- In the writing loop, with `i` buffers written. -/
  | writing (i : Nat)
  /-- `threadFunc` has returned. -/
  | returned
  deriving DecidableEq, Repr

/-- The local variables of `threadFunc`. -/
structure BackEnd where
  pc : BackEndPc
  newbuffer1 : BufferPtr
  newbuffer2 : BufferPtr
  buffersToWrite : List BufferPtr

/-- The logger, the data handed to `LogFile::append` call by call, and the lines that the
    front end has appended, in lock order. -/
structure AsyncLogging where
  running_ : Bool
  front : FrontEnd
  back : BackEnd
  output : List (List Byte)
  lines : List (List Byte)

/-- The logger after its constructor. -/
def AsyncLogging.new : AsyncLogging :=
  ⟨false, .new, ⟨.notStarted, none, none, []⟩, [], []⟩

/-! ## §2 The backend thread -/

/-- The rest of the locked section, after the wait: the current buffer joins the full ones,
    the spares take the places of the buffers that were used, and the vectors are swapped. -/
def swapBuffers (f : FrontEnd) (b : BackEnd) : FrontEnd × BackEnd :=
  let buffers := f.buffers_ ++ [f.currentBuffer_]
  match f.nextBuffer_ with
  | some next => (⟨b.newbuffer1, some next, b.buffersToWrite⟩,
      ⟨.writing 0, none, b.newbuffer2, buffers⟩)
  | none => (⟨b.newbuffer1, b.newbuffer2, b.buffersToWrite⟩,
      ⟨.writing 0, none, none, buffers⟩)

/-- `spare = std::move(buffersToWrite.back()); buffersToWrite.pop_back(); spare->reset();` -/
def recycleBack (buffersToWrite : List BufferPtr) : Option (LargeBuffer × List BufferPtr) := do
  let last ← buffersToWrite.getLast?
  let buffer ← last
  some (buffer.reset, buffersToWrite.dropLast)

/-- Refill a spare that has been moved away. -/
def refill (spare : BufferPtr) (buffersToWrite : List BufferPtr) :
    Option (LargeBuffer × List BufferPtr) :=
  match spare with
  | some buffer => some (buffer, buffersToWrite)
  | none => recycleBack buffersToWrite

/-- The end of an iteration: `resize(2)`, the two spares, `clear()`. -/
def recycle (b : BackEnd) : Option BackEnd := do
  let buffers := if b.buffersToWrite.length > 2 then b.buffersToWrite.take 2
    else b.buffersToWrite
  let (newbuffer1, buffers) ← refill b.newbuffer1 buffers
  let (newbuffer2, _) ← refill b.newbuffer2 buffers
  some ⟨.loopTest, some newbuffer1, some newbuffer2, []⟩

/-- One step of the backend thread. -/
def backEndStep (s : AsyncLogging) : Option AsyncLogging :=
  match s.back.pc with
  | .notStarted => some s
  | .loopTest =>
    some { s with back := { s.back with pc := if s.running_ then .locking else .returned } }
  | .locking =>
    if s.front.buffers_.isEmpty then some { s with back := { s.back with pc := .waiting } }
    else
      let (front, back) := swapBuffers s.front s.back
      some { s with front := front, back := back }
  | .waiting =>
    let (front, back) := swapBuffers s.front s.back
    some { s with front := front, back := back }
  | .writing i =>
    match s.back.buffersToWrite[i]? with
    | some buffer => do
      let buffer ← buffer
      some { s with
        output := s.output ++ [buffer.content]
        back := { s.back with pc := .writing (i + 1) } }
    | none => do
      let back ← recycle s.back
      some { s with back := back }
  | .returned => some s

/-! ## §3 The machine -/

/-- The actions of the logger's threads. -/
inductive LogAct where
  /-- A front-end thread appends a line. -/
  | append (logline : List Byte)
  /-- `start()`: the thread begins, with two new spare buffers. -/
  | start
  /-- `stop()`. -/
  | stop
  /-- The backend thread takes a step. -/
  | backEnd

/-- A front-end line is shorter than a buffer; `start()` is called once. -/
def logEnabled (s : AsyncLogging) : LogAct → Bool
  | .append logline => logline.length < kLargeBufferSize
  | .start => s.back.pc = .notStarted
  | .stop => true
  | .backEnd => s.back.pc ≠ .notStarted ∧ s.back.pc ≠ .returned

/-- The effect of an action. -/
def logStep (s : AsyncLogging) : LogAct → Option AsyncLogging
  | .append logline => do
    let front ← s.front.append logline
    some { s with front := front, lines := s.lines ++ [logline] }
  | .start =>
    some { s with
      running_ := true
      back := ⟨.loopTest, some newLargeBuffer.bzero, some newLargeBuffer.bzero, []⟩ }
  | .stop => some { s with running_ := false }
  | .backEnd => backEndStep s

/-- The logger as a machine. -/
def loggingMachine : Machine AsyncLogging LogAct := ⟨logEnabled, logStep⟩

/-! ## §4 The invariant -/

/-- The bytes of a buffer, none for a null pointer. -/
def ptrContent (p : BufferPtr) : List Byte := (p.map FixedBuffer.content).getD []

/-- The pointer is not null and its buffer is well-formed. -/
def Usable (p : BufferPtr) : Prop := ∃ b, p = some b ∧ b.WF

/-- The pointer is a usable spare: its buffer is empty. -/
def Spare (p : BufferPtr) : Prop := ∃ b, p = some b ∧ b.WF ∧ b.content = []

/-- The buffers whose writing is still to come: those of `buffersToWrite` from the loop index
    on, then `buffers_`, then the current buffer. -/
def unwritten (s : AsyncLogging) : List BufferPtr :=
  (match s.back.pc with
    | .writing i => s.back.buffersToWrite.drop i
    | _ => []) ++ s.front.buffers_ ++ [s.front.currentBuffer_]

/-- The data written, then the data to be written, piece by piece. -/
def pieces (s : AsyncLogging) : List (List Byte) := s.output ++ (unwritten s).map ptrContent

/-- The lines can be grouped so that each group is one piece. -/
def WholeLines (lines chunks : List (List Byte)) : Prop :=
  ∃ groups : List (List (List Byte)), groups.map List.flatten = chunks ∧ groups.flatten = lines

/-- The front end: the current buffer is there, and the second spare can only be missing when
    a full buffer is waiting. -/
structure FrontOk (f : FrontEnd) : Prop where
  current : Usable f.currentBuffer_
  next : f.nextBuffer_ = none ∨ Spare f.nextBuffer_
  buffers : ∀ p ∈ f.buffers_, Usable p
  taken : f.nextBuffer_ = none → f.buffers_ ≠ []

/-- The backend: between iterations it has two spares; in the writing loop it has given away
    the first one, and the second one only together with a second buffer to write. -/
def BackOk (b : BackEnd) : Prop :=
  match b.pc with
  | .notStarted | .returned => b.buffersToWrite = []
  | .loopTest | .locking | .waiting =>
    Spare b.newbuffer1 ∧ Spare b.newbuffer2 ∧ b.buffersToWrite = []
  | .writing _ =>
    b.newbuffer1 = none ∧ b.buffersToWrite ≠ [] ∧ (∀ p ∈ b.buffersToWrite, Usable p) ∧
      (Spare b.newbuffer2 ∨ (b.newbuffer2 = none ∧ 2 ≤ b.buffersToWrite.length))

/-- The invariant of the logger. -/
structure LogInv (s : AsyncLogging) : Prop where
  front : FrontOk s.front
  back : BackOk s.back
  whole : WholeLines s.lines (pieces s)

/-! ## §5 Whole lines -/

/-- An empty buffer changes nothing. -/
theorem WholeLines.snoc_empty {lines chunks : List (List Byte)} (h : WholeLines lines chunks) :
    WholeLines lines (chunks ++ [[]]) := by
  obtain ⟨groups, hchunks, hlines⟩ := h
  exact ⟨groups ++ [[]], by simp [hchunks], by simp [hlines]⟩

/-- A line appended to the last buffer. -/
theorem WholeLines.extend {lines chunks : List (List Byte)} {last : List Byte}
    (h : WholeLines lines (chunks ++ [last])) (line : List Byte) :
    WholeLines (lines ++ [line]) (chunks ++ [last ++ line]) := by
  obtain ⟨groups, hchunks, hlines⟩ := h
  obtain ⟨init, tail, rfl, hinit, htail⟩ := List.map_eq_append_iff.mp hchunks
  obtain ⟨group, rfl, hgroup⟩ := List.map_eq_singleton_iff.mp htail
  refine ⟨init ++ [group ++ [line]], by simp [hinit, hgroup], ?_⟩
  rw [← hlines]
  simp

/-! ## §6 Steps -/

theorem kLargeBufferSize_lt : kLargeBufferSize < 2 ^ 63 := by decide

theorem spare_new : Spare (some newLargeBuffer) :=
  ⟨_, rfl, FixedBuffer.wf_new (by decide) _⟩

theorem spare_bzero {b : LargeBuffer} (h : Spare (some b)) (hsize : b.size_ = 0) :
    Spare (some b.bzero) := by
  obtain ⟨b', hb, hwf, -⟩ := h
  cases hb
  exact ⟨_, rfl, ⟨hwf.cur_eq, hwf.size_lt⟩, by simp [FixedBuffer.content, FixedBuffer.bzero, hsize]⟩

theorem Spare.usable {p : BufferPtr} (h : Spare p) : Usable p := by
  obtain ⟨b, hb, hwf, -⟩ := h
  exact ⟨b, hb, hwf⟩

/-- A line shorter than a buffer fits into a spare. -/
theorem append_spare {b : LargeBuffer} (h : Spare (some b)) {line : List Byte}
    (hline : line.length < kLargeBufferSize) :
    (b.append line).WF ∧ (b.append line).content = line := by
  obtain ⟨b', hb, hwf, hempty⟩ := h
  cases hb
  have hsize : b.size_ = 0 := by rw [← FixedBuffer.length_content, hempty]; rfl
  have hfit : line.length < b.avail := by
    rw [hwf.avail_eq kLargeBufferSize_lt, hsize]
    exact hline
  have happ := FixedBuffer.append_of_fits hwf hfit kLargeBufferSize_lt
  rw [hempty, List.nil_append] at happ
  exact happ

/-- A spare that has taken the line becomes the current buffer, behind the full one. -/
theorem FrontOk.startBuffer {f : FrontEnd} (h : FrontOk f) {current b : LargeBuffer}
    (hcur : f.currentBuffer_ = some current) (hwf : current.WF) (hb : Spare (some b))
    {line : List Byte} (hline : line.length < kLargeBufferSize) :
    FrontOk ⟨some (b.append line), none, f.buffers_ ++ [some current]⟩ ∧
      ∀ (lines chunks : List (List Byte)),
        WholeLines lines (chunks ++ (f.buffers_ ++ [f.currentBuffer_]).map ptrContent) →
        WholeLines (lines ++ [line]) (chunks ++
          (f.buffers_ ++ [some current] ++ [some (b.append line)]).map ptrContent) := by
  obtain ⟨hwf', hcontent⟩ := append_spare hb hline
  have hpush : ∀ p ∈ f.buffers_ ++ [some current], Usable p := by
    intro p hp
    rcases List.mem_append.mp hp with hp | hp
    · exact h.buffers p hp
    · exact List.mem_singleton.mp hp ▸ ⟨current, rfl, hwf⟩
  refine ⟨⟨⟨_, rfl, hwf'⟩, .inl rfl, hpush, fun _ => by simp⟩, ?_⟩
  intro lines chunks hwhole
  -- the new piece is empty before it gets the line
  have hlast := hwhole.snoc_empty.extend line
  rw [hcur] at hlast
  simpa [ptrContent, hcontent] using hlast

/-- The front end's `append` adds the line to the last piece or starts a new one. -/
theorem frontEnd_append {f : FrontEnd} (h : FrontOk f) {line : List Byte}
    (hline : line.length < kLargeBufferSize) :
    ∃ f', f.append line = some f' ∧ FrontOk f' ∧
      ∀ (lines chunks : List (List Byte)),
        WholeLines lines (chunks ++ (f.buffers_ ++ [f.currentBuffer_]).map ptrContent) →
        WholeLines (lines ++ [line])
          (chunks ++ (f'.buffers_ ++ [f'.currentBuffer_]).map ptrContent) := by
  obtain ⟨current, hcur, hwf⟩ := h.current
  by_cases hfit : current.avail > line.length
  · -- the line fits into the current buffer
    obtain ⟨hwf', hcontent⟩ := FixedBuffer.append_of_fits hwf hfit kLargeBufferSize_lt
    refine ⟨{ f with currentBuffer_ := some (current.append line) },
      by simp [FrontEnd.append, hcur, hfit], ⟨⟨_, rfl, hwf'⟩, h.next, h.buffers, h.taken⟩, ?_⟩
    intro lines chunks hwhole
    rw [hcur] at hwhole
    simp only [List.map_append, List.map_cons, List.map_nil, ← List.append_assoc] at hwhole ⊢
    have hlast := hwhole.extend line
    simpa [ptrContent, hcontent] using hlast
  · -- the current buffer is full: a spare, or a new buffer, takes the line
    cases hnext : f.nextBuffer_ with
    | some next =>
      have hspare : Spare (some next) := by simpa [hnext] using h.next
      exact ⟨_, by simp only [FrontEnd.append, hcur, Option.bind_eq_bind, Option.bind_some,
        if_neg hfit, hnext], h.startBuffer hcur hwf hspare hline⟩
    | none =>
      exact ⟨_, by simp only [FrontEnd.append, hcur, Option.bind_eq_bind, Option.bind_some,
        if_neg hfit, hnext], h.startBuffer hcur hwf spare_new hline⟩

/-- The swap hands all buffers to the backend and adds an empty one. -/
theorem swapBuffers_spec {f : FrontEnd} {b : BackEnd} (hf : FrontOk f) (h1 : Spare b.newbuffer1)
    (h2 : Spare b.newbuffer2) (hnil : b.buffersToWrite = []) :
    FrontOk (swapBuffers f b).1 ∧ BackOk (swapBuffers f b).2 ∧
    (swapBuffers f b).2.pc = .writing 0 ∧
    (swapBuffers f b).2.buffersToWrite = f.buffers_ ++ [f.currentBuffer_] ∧
    (swapBuffers f b).1.buffers_ = [] ∧
    ptrContent (swapBuffers f b).1.currentBuffer_ = [] := by
  have hall : ∀ p ∈ f.buffers_ ++ [f.currentBuffer_], Usable p := by
    intro p hp
    rcases List.mem_append.mp hp with hp | hp
    · exact hf.buffers p hp
    · exact List.mem_singleton.mp hp ▸ hf.current
  have hcontent : ptrContent b.newbuffer1 = [] := by
    obtain ⟨nb, hnb, -, hempty⟩ := h1
    simp [ptrContent, hnb, hempty]
  cases hnext : f.nextBuffer_ with
  | some next =>
    have hspare : Spare (some next) := by simpa [hnext] using hf.next
    simp only [swapBuffers, hnext, hnil]
    refine ⟨⟨h1.usable, .inr hspare, by simp, by simp⟩, ⟨rfl, by simp, hall, .inl h2⟩,
      trivial, trivial, trivial, hcontent⟩
  | none =>
    -- the second spare was taken, so a full buffer is waiting beside the current one
    have hpos : 0 < f.buffers_.length := List.length_pos_of_ne_nil (hf.taken hnext)
    have hlen : 2 ≤ (f.buffers_ ++ [f.currentBuffer_]).length := by
      simp only [List.length_append, List.length_singleton]
      omega
    simp only [swapBuffers, hnext, hnil]
    refine ⟨⟨h1.usable, .inr h2, by simp, ?_⟩, ⟨rfl, by simp, hall, .inr ⟨rfl, hlen⟩⟩,
      trivial, trivial, trivial, hcontent⟩
    intro hnone
    obtain ⟨nb, hnb, -⟩ := h2
    rw [hnb] at hnone
    cases hnone

/-- A spare can be recycled from a non-empty vector of usable buffers. -/
theorem recycleBack_spec {buffers : List BufferPtr} (hne : buffers ≠ [])
    (hall : ∀ p ∈ buffers, Usable p) :
    ∃ b, recycleBack buffers = some (b, buffers.dropLast) ∧ Spare (some b) := by
  obtain ⟨b, hb, hwf⟩ := hall _ (List.getLast_mem hne)
  refine ⟨b.reset, ?_, b.reset, rfl, FixedBuffer.wf_reset hwf⟩
  simp [recycleBack, List.getLast?_eq_some_getLast hne, hb]

/-- The end of an iteration refills both spares. -/
theorem recycle_spec {b : BackEnd} {i : Nat} (hpc : b.pc = .writing i) (h : BackOk b) :
    ∃ nb1 nb2, recycle b = some ⟨.loopTest, some nb1, some nb2, []⟩ ∧ Spare (some nb1) ∧
      Spare (some nb2) := by
  simp only [BackOk, hpc] at h
  obtain ⟨hnb1, hne, hall, hnb2⟩ := h
  have hpos : 0 < b.buffersToWrite.length := List.length_pos_of_ne_nil hne
  -- what `resize(2)` keeps
  obtain ⟨kept, hkept⟩ : ∃ kept, kept = (if b.buffersToWrite.length > 2
      then b.buffersToWrite.take 2 else b.buffersToWrite) := ⟨_, rfl⟩
  have husable : ∀ p ∈ kept, Usable p := by
    intro p hp
    rw [hkept] at hp
    split at hp
    · exact hall p (List.mem_of_mem_take hp)
    · exact hall p hp
  have hlen : kept.length = min 2 b.buffersToWrite.length := by
    rw [hkept]
    split
    · simp
    · omega
  obtain ⟨nb1, hrec1, hspare1⟩ :=
    recycleBack_spec (List.ne_nil_of_length_pos (by omega)) husable
  rcases hnb2 with hspare2 | ⟨hnone, htwo⟩
  · obtain ⟨nb2, hsome, hwf2, hempty2⟩ := hspare2
    refine ⟨nb1, nb2, ?_, hspare1, nb2, rfl, hwf2, hempty2⟩
    simp only [recycle, ← hkept, refill, hnb1, hsome, hrec1, Option.bind_eq_bind,
      Option.bind_some]
  · -- both spares are gone, so two buffers were written
    have hrest : kept.dropLast ≠ [] :=
      List.ne_nil_of_length_pos (by rw [List.length_dropLast]; omega)
    obtain ⟨nb2, hrec2, hspare2⟩ :=
      recycleBack_spec hrest (fun p hp => husable p (List.dropLast_subset _ hp))
    refine ⟨nb1, nb2, ?_, hspare1, hspare2⟩
    simp only [recycle, ← hkept, refill, hnb1, hnone, hrec1, hrec2, Option.bind_eq_bind,
      Option.bind_some]

/-! ## §7 Every run -/

theorem pieces_eq_of_not_writing {s : AsyncLogging} (h : ∀ i, s.back.pc ≠ .writing i) :
    pieces s = s.output ++ (s.front.buffers_ ++ [s.front.currentBuffer_]).map ptrContent := by
  cases hpc : s.back.pc <;> simp_all [pieces, unwritten]

/-- The invariant survives an `append`. -/
theorem logInv_append {s : AsyncLogging} (h : LogInv s) {line : List Byte}
    (hline : line.length < kLargeBufferSize) :
    ∃ t, logStep s (.append line) = some t ∧ LogInv t := by
  obtain ⟨front, happ, hfront, hwhole⟩ := frontEnd_append h.front hline
  refine ⟨{ s with front := front, lines := s.lines ++ [line] }, ?_, hfront, h.back, ?_⟩
  · simp only [logStep, happ, Option.bind_eq_bind, Option.bind_some]
  · have hpieces := h.whole
    simp only [pieces, unwritten, List.append_assoc] at hpieces ⊢
    rw [List.map_append, ← List.append_assoc] at hpieces ⊢
    exact hwhole _ _ hpieces

/-- Before a swap the backend has its two spares, and nothing to write. -/
theorem BackOk.spares {b : BackEnd} (h : BackOk b) (hpc : b.pc = .locking ∨ b.pc = .waiting) :
    Spare b.newbuffer1 ∧ Spare b.newbuffer2 ∧ b.buffersToWrite = [] := by
  rcases hpc with hpc | hpc
  · simpa only [BackOk, hpc] using h
  · simpa only [BackOk, hpc] using h

/-- The invariant survives the swap. -/
theorem logInv_swap {s : AsyncLogging} (h : LogInv s)
    (hpc : s.back.pc = .locking ∨ s.back.pc = .waiting) :
    LogInv { s with front := (swapBuffers s.front s.back).1
                    back := (swapBuffers s.front s.back).2 } := by
  obtain ⟨h1, h2, hnil⟩ := h.back.spares hpc
  obtain ⟨hfront', hback', hpc', hwrite, hbuffers, hempty⟩ := swapBuffers_spec h.front h1 h2 hnil
  refine ⟨hfront', hback', ?_⟩
  have hwhole := h.whole
  rw [pieces_eq_of_not_writing (by rcases hpc with hpc | hpc <;> simp [hpc])] at hwhole
  have hlast := hwhole.snoc_empty
  simpa [pieces, unwritten, hpc', hwrite, hbuffers, hempty] using hlast

/-- The invariant survives a step of the backend. -/
theorem logInv_backEnd {s : AsyncLogging} (h : LogInv s) :
    ∃ t, backEndStep s = some t ∧ LogInv t := by
  have hback := h.back
  have hwhole := h.whole
  unfold backEndStep
  cases hpc : s.back.pc with
  | notStarted => exact ⟨s, rfl, h⟩
  | returned => exact ⟨s, rfl, h⟩
  | loopTest =>
    simp only [BackOk, hpc] at hback
    rw [pieces_eq_of_not_writing (by simp [hpc])] at hwhole
    refine ⟨_, rfl, h.front, ?_, ?_⟩
    · cases s.running_
      · exact hback.2.2
      · exact hback
    · rw [pieces_eq_of_not_writing (by cases s.running_ <;> simp)]
      exact hwhole
  | locking =>
    simp only
    split
    · simp only [BackOk, hpc] at hback
      rw [pieces_eq_of_not_writing (by simp [hpc])] at hwhole
      refine ⟨_, rfl, h.front, hback, ?_⟩
      rw [pieces_eq_of_not_writing (by simp)]
      exact hwhole
    · exact ⟨_, rfl, logInv_swap h (.inl hpc)⟩
  | waiting => exact ⟨_, rfl, logInv_swap h (.inr hpc)⟩
  | writing i =>
    simp only [BackOk, hpc] at hback
    cases hget : s.back.buffersToWrite[i]? with
    | some buffer =>
      obtain ⟨hi, hbuffer⟩ := List.getElem?_eq_some_iff.mp hget
      obtain ⟨b, rfl, -⟩ := hback.2.2.1 buffer (hbuffer ▸ List.getElem_mem hi)
      refine ⟨{ s with
        output := s.output ++ [b.content]
        back := { s.back with pc := .writing (i + 1) } }, by simp [hget], h.front, hback, ?_⟩
      simp only [pieces, unwritten, hpc] at hwhole ⊢
      rw [List.drop_eq_getElem_cons hi, hbuffer] at hwhole
      simpa [ptrContent] using hwhole
    | none =>
      -- the vector is written out: the buffers recycled hold nothing that is still to come
      have hdone : s.back.buffersToWrite.drop i = [] :=
        List.drop_eq_nil_of_le (List.getElem?_eq_none_iff.mp hget)
      obtain ⟨nb1, nb2, hrec, hspare1, hspare2⟩ := recycle_spec hpc h.back
      refine ⟨{ s with back := ⟨.loopTest, some nb1, some nb2, []⟩ }, by simp [hget, hrec], h.front,
        ⟨hspare1, hspare2, rfl⟩, ?_⟩
      simpa [pieces, unwritten, hpc, hdone] using hwhole

theorem logInv_new : LogInv AsyncLogging.new := by
  have hspare : Spare (some newLargeBuffer.bzero) := spare_bzero spare_new rfl
  refine ⟨⟨hspare.usable, .inr hspare, by simp [AsyncLogging.new, FrontEnd.new], ?_⟩, rfl,
    ⟨[[]], rfl, rfl⟩⟩
  simp [AsyncLogging.new, FrontEnd.new]

/-- `LogInv` is an inductive invariant of the logger. -/
theorem logInv_invariant : loggingMachine.Invariant AsyncLogging.new LogInv where
  init := logInv_new
  step := by
    intro s a h he
    cases a with
    | append line => exact logInv_append h (by simpa [loggingMachine, logEnabled] using he)
    | start =>
      have hpc : s.back.pc = .notStarted := by simpa [loggingMachine, logEnabled] using he
      have hspare : Spare (some newLargeBuffer.bzero) := spare_bzero spare_new rfl
      refine ⟨_, rfl, h.front, ⟨hspare, hspare, rfl⟩, ?_⟩
      have hwhole := h.whole
      rw [pieces_eq_of_not_writing (by simp [hpc])] at hwhole
      rw [pieces_eq_of_not_writing (by simp)]
      exact hwhole
    | stop => exact ⟨_, rfl, h.front, h.back, h.whole⟩
    | backEnd => exact logInv_backEnd h

/-- **No line is lost, torn or reordered.** In every state that any interleaving of appends
    and backend steps reaches, the pieces written followed by the buffers to be written group
    the appended lines in lock order; the current buffer is not null; both spares are there
    at the start of every iteration; and no step faults. -/
theorem logging_reaches_conserved {as : List LogAct} {s : AsyncLogging}
    (h : loggingMachine.Reaches AsyncLogging.new as s) :
    s.output.flatten ++ ((unwritten s).map ptrContent).flatten = s.lines.flatten ∧
    WholeLines s.lines (s.output ++ (unwritten s).map ptrContent) ∧
    s.front.currentBuffer_ ≠ none ∧
    (s.back.pc = .loopTest → s.back.newbuffer1 ≠ none ∧ s.back.newbuffer2 ≠ none) ∧
    loggingMachine.Safe s := by
  have hinv := Machine.invariant_reaches logInv_invariant h
  refine ⟨?_, hinv.whole, ?_, ?_, Machine.invariant_safe logInv_invariant h⟩
  · obtain ⟨groups, hchunks, hlines⟩ := hinv.whole
    rw [← List.flatten_append, ← hlines]
    rw [pieces] at hchunks
    rw [← hchunks, List.flatten_flatten]
  · obtain ⟨b, hb, -⟩ := hinv.front.current
    simp [hb]
  · intro hpc
    have hback := hinv.back
    simp only [BackOk, hpc] at hback
    obtain ⟨⟨b1, hb1, -⟩, ⟨b2, hb2, -⟩, -⟩ := hback
    simp [hb1, hb2]

/-- A run in which a line reaches the file while another waits in the next current buffer. -/
def shortLogRun : List LogAct :=
  [.append [65, 10], .start, .backEnd, .backEnd, .backEnd, .append [66, 10], .backEnd, .backEnd]

theorem shortLogRun_conserved :
    ∃ s, loggingMachine.Reaches AsyncLogging.new shortLogRun s ∧ s.output = [[65, 10]] ∧
      s.output.flatten ++ ((unwritten s).map ptrContent).flatten = [65, 10, 66, 10] ∧
      s.back.newbuffer1 ≠ none ∧ s.back.newbuffer2 ≠ none ∧ loggingMachine.Safe s := by
  have hrun : (loggingMachine.run AsyncLogging.new shortLogRun).map
      (fun s => (s.output, s.lines, s.back.pc)) =
      some ([[65, 10]], [[65, 10], [66, 10]], BackEndPc.loopTest) := by decide
  obtain ⟨s, hs, heq⟩ := Option.map_eq_some_iff.mp hrun
  simp only [Prod.mk.injEq] at heq
  have hreach := Machine.reaches_of_run hs
  obtain ⟨hbytes, -, -, hspares, hsafe⟩ := logging_reaches_conserved hreach
  obtain ⟨h1, h2⟩ := hspares heq.2.2
  refine ⟨s, hreach, heq.1, ?_, h1, h2, hsafe⟩
  rw [hbytes, heq.2.1]
  rfl

end RainWebServer.Log
