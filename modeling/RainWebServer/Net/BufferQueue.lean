import RainWebServer.Lib.Machine
import RainWebServer.Net.Buffer
import Mathlib.Algebra.Group.Nat.Defs

/-!
# Buffer: a FIFO Queue over Machine Integers

The operations of `Buffer` once more, with the `size_t` arithmetic of the source: sums and
differences wrap around, and a vector that would be longer than `max_size()` is refused with
`std::length_error`. The sizes that a caller passes to the constructor and to
`ensureWritableBytes` may be any `size_t`, so the sums with them can wrap; the bytes that a
caller appends are in memory.

The vector is the list of its bytes, a copy that leaves it is `none`. Allocation failure is not
modelled.

## Main results

- `SizedBuffer.exec_spec` : what a call does to a well-formed buffer
- `buffer_fifo_queue` : runs on which no size wraps
- `wrapRun_breaks` : a call of `ensureWritableBytes` that shrinks the vector
-/

namespace RainWebServer.Net

open RainWebServer.Lib

namespace SizedBuffer

/-! ## §1 The operations -/

/-- A sum of `size_t`. -/
def sizeT (n : Nat) : Nat := n % 2 ^ 64

/-- A difference of `size_t`. -/
def sizeTSub (m n : Nat) : Nat := (m + (2 ^ 64 - n)) % 2 ^ 64

/-- `std::vector<char>::max_size()`. -/
def maxSize : Nat := 2 ^ 63 - 1

/-- How a call ends: it returns, with the bytes of the string if it returns one, or it throws
    `std::length_error`. -/
inductive Outcome where
  | returned (result : List Byte)
  | threw
  deriving DecidableEq, Repr

/-- The constructor; `none` if it throws. -/
def construct (initialSize : Nat) : Option Buffer :=
  if maxSize < sizeT (kCheapPrepend + initialSize) then none
  else some ⟨List.replicate (sizeT (kCheapPrepend + initialSize)) 0, kCheapPrepend, kCheapPrepend⟩

/-- `readableBytes`. -/
def readableBytes (b : Buffer) : Nat := sizeTSub b.writerIndex_ b.readerIndex_

/-- `writableBytes`. -/
def writableBytes (b : Buffer) : Nat := sizeTSub b.buffer_.length b.writerIndex_

/-- `retrieve`. -/
def retrieve (b : Buffer) (len : Nat) : Buffer :=
  if len < readableBytes b then { b with readerIndex_ := sizeT (b.readerIndex_ + len) }
  else b.retrieveAll

/-- `retrieveAsString`; the string is read from the vector. -/
def retrieveAsString (b : Buffer) (len : Nat) : Option (Buffer × Outcome) :=
  if b.readerIndex_ + len ≤ b.buffer_.length then
    some (retrieve b len, .returned (slice b.buffer_ b.readerIndex_ (b.readerIndex_ + len)))
  else none

/-- `makeSpace`. -/
def makeSpace (b : Buffer) (len : Nat) : Option (Buffer × Outcome) :=
  if sizeT (writableBytes b + b.prependableBytes) < sizeT (len + kCheapPrepend) then
    if maxSize < sizeT (b.writerIndex_ + len) then some (b, .threw)
    else
      some ({ b with buffer_ := Buffer.resize b.buffer_ (sizeT (b.writerIndex_ + len)) },
        .returned [])
  else
    (copyForward b.buffer_ b.readerIndex_ kCheapPrepend (readableBytes b)).map fun buffer =>
      (⟨buffer, kCheapPrepend, sizeT (kCheapPrepend + readableBytes b)⟩, .returned [])

/-- `ensureWritableBytes`. -/
def ensureWritableBytes (b : Buffer) (len : Nat) : Option (Buffer × Outcome) :=
  if writableBytes b < len then makeSpace b len else some (b, .returned [])

/-- `append`. -/
def append (b : Buffer) (data : List Byte) : Option (Buffer × Outcome) :=
  (ensureWritableBytes b data.length).bind fun
    | (b, .threw) => some (b, .threw)
    | (b, .returned _) =>
      (copyInto b.buffer_ b.writerIndex_ data).map fun buffer =>
        ({ b with buffer_ := buffer, writerIndex_ := sizeT (b.writerIndex_ + data.length) },
          .returned [])

/-- The space that `readFd` offers to `readv`. -/
def offered (b : Buffer) : Nat :=
  if writableBytes b < Buffer.extrabufSize then writableBytes b + Buffer.extrabufSize
  else writableBytes b

/-- `readFd`; `read` is what `readv` delivered, the first iovec before the second, or an error. -/
def readFd (b : Buffer) : Option (List Byte) → Option (Buffer × Outcome)
  | none => some (b, .returned [])
  | some bytes =>
    (copyInto b.buffer_ b.writerIndex_ (bytes.take (writableBytes b))).bind fun buffer =>
      if bytes.length ≤ writableBytes b then
        some ({ b with buffer_ := buffer, writerIndex_ := sizeT (b.writerIndex_ + bytes.length) },
          .returned [])
      else
        append { b with buffer_ := buffer, writerIndex_ := b.buffer_.length }
          (bytes.drop (writableBytes b))

end SizedBuffer

/-- The calls of a `Buffer`; `readFd` with what `readv` delivered, or an error. -/
inductive BufferOp where
  | append (data : List Byte)
  | ensureWritableBytes (len : Nat)
  | retrieve (len : Nat)
  | retrieveAll
  | retrieveAsString (len : Nat)
  | retrieveAllAsString
  | readFd (read : Option (List Byte))
  deriving DecidableEq, Repr

namespace SizedBuffer

/-- A call, with how it ends. -/
def exec (b : Buffer) : BufferOp → Option (Buffer × Outcome)
  | .append data => append b data
  | .ensureWritableBytes len => ensureWritableBytes b len
  | .retrieve len => some (retrieve b len, .returned [])
  | .retrieveAll => some (b.retrieveAll, .returned [])
  | .retrieveAsString len => retrieveAsString b len
  | .retrieveAllAsString => retrieveAsString b (readableBytes b)
  | .readFd read => readFd b read

end SizedBuffer

open SizedBuffer in
/-- The calls that a caller can make: a length is a `size_t`, appended bytes are in memory,
    `retrieveAsString` asks for readable bytes, and `readv` fills at most the offered space. -/
def bufferMachine : Machine Buffer BufferOp where
  enabled b
    | .append data => decide (data.length ≤ maxSize)
    | .ensureWritableBytes len => decide (len < 2 ^ 64)
    | .retrieve len => decide (len < 2 ^ 64)
    | .retrieveAll => true
    | .retrieveAsString len => decide (len ≤ readableBytes b)
    | .retrieveAllAsString => true
    | .readFd none => true
    | .readFd (some bytes) => decide (bytes.length ≤ offered b)
  step b op := (exec b op).map Prod.fst

/-! ## §2 Buffers whose sizes do not wrap -/

namespace SizedBuffer

/-- A well-formed buffer whose vector has a possible size. -/
structure Sized (b : Buffer) : Prop where
  wf : b.WF
  size_le : b.buffer_.length ≤ maxSize

theorem sizeT_eq {n : Nat} (h : n < 2 ^ 64) : sizeT n = n := Nat.mod_eq_of_lt h

theorem sizeTSub_eq {m n : Nat} (hle : n ≤ m) (hm : m < 2 ^ 64) : sizeTSub m n = m - n := by
  unfold sizeTSub
  omega

variable {b : Buffer}

/-- All positions are far below the limit of `size_t`. -/
theorem Sized.bounds (h : Sized b) : b.readerIndex_ ≤ b.writerIndex_ ∧
    b.writerIndex_ ≤ b.buffer_.length ∧ b.buffer_.length < 2 ^ 63 := by
  have hsize := h.size_le
  unfold maxSize at hsize
  exact ⟨h.wf.reader_le, h.wf.writer_le, by omega⟩

theorem Sized.readableBytes_eq (h : Sized b) : readableBytes b = b.readableBytes := by
  obtain ⟨hread, hwrite, hsize⟩ := h.bounds
  exact sizeTSub_eq hread (by omega)

theorem Sized.writableBytes_eq (h : Sized b) : writableBytes b = b.writableBytes := by
  obtain ⟨-, hwrite, hsize⟩ := h.bounds
  exact sizeTSub_eq hwrite (by omega)

theorem Sized.retrieve_eq (h : Sized b) (len : Nat) : retrieve b len = b.retrieve len := by
  obtain ⟨hread, hwrite, hsize⟩ := h.bounds
  rw [retrieve, Buffer.retrieve, h.readableBytes_eq]
  split
  · rename_i hlen
    unfold Buffer.readableBytes at hlen
    rw [sizeT_eq (by omega)]
  · rfl

theorem Sized.retrieve (h : Sized b) (len : Nat) : Sized (retrieve b len) := by
  rw [h.retrieve_eq]
  refine ⟨h.wf.retrieve len, ?_⟩
  unfold Buffer.retrieve
  split <;> exact h.size_le

/-- The readable bytes move to the front, element by element. -/
theorem Sized.slide (h : Sized b) :
    ∃ b', (copyForward b.buffer_ b.readerIndex_ kCheapPrepend (readableBytes b)).map (fun buffer =>
        ((⟨buffer, kCheapPrepend, sizeT (kCheapPrepend + readableBytes b)⟩ : Buffer),
          Outcome.returned [])) = some (b', .returned []) ∧
      Sized b' ∧ b'.readable = b.readable ∧ b'.buffer_.length = b.buffer_.length ∧
      b'.writerIndex_ = kCheapPrepend + b.readableBytes := by
  obtain ⟨hread, hwrite, hsize⟩ := h.bounds
  obtain ⟨r, hcopy, hlength, hwf, hreadable⟩ := Buffer.slide_spec h.wf
  have hend : b.readerIndex_ + b.readableBytes = b.writerIndex_ := by
    unfold Buffer.readableBytes
    omega
  have hforward :
      copyForward b.buffer_ b.readerIndex_ kCheapPrepend (readableBytes b) = some r := by
    rw [h.readableBytes_eq, copyForward_eq _ h.wf.prepend_le (by omega), hend]
    exact hcopy
  have hwriter : sizeT (kCheapPrepend + readableBytes b) = kCheapPrepend + b.readableBytes := by
    rw [h.readableBytes_eq]
    apply sizeT_eq
    have hprep := h.wf.prepend_le
    unfold Buffer.readableBytes
    omega
  refine ⟨⟨r, kCheapPrepend, kCheapPrepend + b.readableBytes⟩, ?_, ⟨hwf, ?_⟩, hreadable, hlength,
    rfl⟩
  · rw [hforward, Option.map_some, hwriter]
  · rw [hlength]
    exact h.size_le

/-- The vector grows behind the readable bytes. -/
theorem Sized.grow (h : Sized b) {size : Nat} (hsize : b.buffer_.length ≤ size)
    (hmax : size ≤ maxSize) :
    Sized { b with buffer_ := Buffer.resize b.buffer_ size } ∧
      Buffer.readable { b with buffer_ := Buffer.resize b.buffer_ size } = b.readable := by
  refine ⟨⟨⟨h.wf.prepend_le, h.wf.reader_le, ?_⟩, ?_⟩, ?_⟩
  · rw [Buffer.length_resize]
    exact h.wf.writer_le.trans hsize
  · rw [Buffer.length_resize]
    exact hmax
  · simp only [Buffer.readable, Buffer.resize]
    rw [List.take_of_length_le hsize]
    exact slice_append_left _ h.wf.writer_le

/-- The sum in `makeSpace` of the two areas that are not readable does not wrap. -/
theorem Sized.spare_eq (h : Sized b) :
    sizeT (writableBytes b + b.prependableBytes) = b.writableBytes + b.prependableBytes := by
  obtain ⟨hread, hwrite, hsize⟩ := h.bounds
  rw [h.writableBytes_eq]
  apply sizeT_eq
  unfold Buffer.writableBytes Buffer.prependableBytes
  omega

/-- **`ensureWritableBytes` keeps the content** unless the new size of the vector wraps. It makes
    the space, or it throws; a length that wraps with `kCheapPrepend` makes no space. -/
theorem ensureWritableBytes_spec (h : Sized b) {len : Nat} (hlen : len < 2 ^ 64)
    (hwrap : b.writerIndex_ + len < 2 ^ 64 ∨ 2 ^ 64 ≤ len + kCheapPrepend) :
    (ensureWritableBytes b len = some (b, .threw) ∧ maxSize < b.writerIndex_ + len) ∨
    ∃ b', ensureWritableBytes b len = some (b', .returned []) ∧ Sized b' ∧
      b'.readable = b.readable ∧
      (b.writerIndex_ + len < 2 ^ 64 → b'.writerIndex_ + len ≤ b'.buffer_.length) := by
  obtain ⟨hread, hwrite, hsize⟩ := h.bounds
  have hprep := h.wf.prepend_le
  unfold ensureWritableBytes makeSpace
  rw [h.spare_eq, h.writableBytes_eq]
  have hwritable : b.writableBytes = b.buffer_.length - b.writerIndex_ := rfl
  have hprependable : b.prependableBytes = b.readerIndex_ := rfl
  rcases Nat.lt_or_ge b.writableBytes len with hroom | hroom
  · rw [if_pos hroom]
    rcases Nat.lt_or_ge (b.writableBytes + b.prependableBytes) (sizeT (len + kCheapPrepend)) with
      hgrow | hspare
    · -- the vector grows; `len + kCheapPrepend` did not wrap, because the sum is large
      have hsum : b.writerIndex_ + len < 2 ^ 64 := by
        rcases hwrap with hsum | hwrapped
        · exact hsum
        · unfold sizeT kCheapPrepend at *
          omega
      rw [if_pos hgrow, sizeT_eq hsum]
      rcases Nat.lt_or_ge maxSize (b.writerIndex_ + len) with hmax | hmax
      · -- `resize` throws before it changes anything
        rw [if_pos hmax]
        exact .inl ⟨rfl, hmax⟩
      · rw [if_neg (Nat.not_lt.mpr hmax)]
        have hsize' : b.buffer_.length ≤ b.writerIndex_ + len := by omega
        obtain ⟨hsized, hreadable⟩ := h.grow hsize' hmax
        refine .inr ⟨_, rfl, hsized, hreadable, fun _ => ?_⟩
        simp only [Buffer.length_resize]
        exact Nat.le_refl _
    · -- the readable bytes move to the front
      rw [if_neg (Nat.not_lt.mpr hspare)]
      obtain ⟨b', hslide, hsized, hreadable, hlength, hwriter⟩ := h.slide
      refine .inr ⟨b', hslide, hsized, hreadable, fun hsum => ?_⟩
      rw [hlength, hwriter]
      rw [sizeT_eq (by unfold kCheapPrepend at *; omega)] at hspare
      unfold Buffer.readableBytes
      omega
  · rw [if_neg (Nat.not_lt.mpr hroom)]
    exact .inr ⟨b, rfl, h, rfl, fun _ => by omega⟩

/-- **A size that wraps shrinks the vector** below the write position. -/
theorem ensureWritableBytes_wraps (h : Sized b) {len : Nat} (hlen : len < 2 ^ 64)
    (hsum : 2 ^ 64 ≤ b.writerIndex_ + len) (hsmall : len + kCheapPrepend < 2 ^ 64) :
    ∃ b', ensureWritableBytes b len = some (b', .returned []) ∧
      b'.buffer_.length < b'.writerIndex_ := by
  obtain ⟨hread, hwrite, hsize⟩ := h.bounds
  have hnew : sizeT (b.writerIndex_ + len) = b.writerIndex_ + len - 2 ^ 64 := by
    unfold sizeT
    omega
  refine ⟨{ b with buffer_ := Buffer.resize b.buffer_ (b.writerIndex_ + len - 2 ^ 64) }, ?_, ?_⟩
  · rw [ensureWritableBytes, h.writableBytes_eq, if_pos, makeSpace, h.spare_eq, if_pos, hnew,
      if_neg]
    · unfold maxSize
      omega
    · rw [sizeT_eq hsmall]
      unfold Buffer.writableBytes Buffer.prependableBytes
      omega
    · unfold Buffer.writableBytes
      omega
  · simp only [Buffer.length_resize]
    omega

end SizedBuffer

/-! ## §3 The queue -/

/-- The bytes that a call adds. -/
def BufferOp.data : BufferOp → List Byte
  | .append data => data
  | .readFd (some bytes) => bytes
  | _ => []

/-- The space that a call asks for. -/
def BufferOp.len : BufferOp → Nat
  | .ensureWritableBytes len => len
  | op => op.data.length

/-- What a call that returns `result` does to a queue of bytes. -/
def FifoStep (queue : List Byte) (op : BufferOp) (result queue' : List Byte) : Prop :=
  match op with
  | .append data => result = [] ∧ queue' = queue ++ data
  | .ensureWritableBytes _ => result = [] ∧ queue' = queue
  | .retrieve len => result = [] ∧ queue' = queue.drop (min len queue.length)
  | .retrieveAll => result = [] ∧ queue' = []
  | .retrieveAsString len => result = queue.take len ∧ queue' = queue.drop len
  | .retrieveAllAsString => result = queue ∧ queue' = []
  | .readFd none => result = [] ∧ queue' = queue
  | .readFd (some bytes) => result = [] ∧ queue' = queue ++ bytes

/-- How a call ends on a queue: it does its step, or it throws because the vector would be too
    long, and has then added at most some of its bytes. -/
def FifoOutcome (b : Buffer) (op : BufferOp) (b' : Buffer) : SizedBuffer.Outcome → Prop
  | .returned result => FifoStep b.readable op result b'.readable
  | .threw => SizedBuffer.maxSize < b.writerIndex_ + op.len ∧
    ∃ n, b'.readable = b.readable ++ op.data.take n

namespace SizedBuffer

variable {b : Buffer}

/-- **`append` adds its bytes at the end**, or throws and changes nothing. -/
theorem append_spec (h : Sized b) {data : List Byte} (hdata : data.length ≤ maxSize) :
    (append b data = some (b, .threw) ∧ maxSize < b.writerIndex_ + data.length) ∨
    ∃ b', append b data = some (b', .returned []) ∧ Sized b' ∧
      b'.readable = b.readable ++ data := by
  obtain ⟨hread, hwrite, hsize⟩ := h.bounds
  have hsum : b.writerIndex_ + data.length < 2 ^ 64 := by
    unfold maxSize at hdata
    omega
  have hlen : data.length < 2 ^ 64 := by omega
  unfold append
  rcases ensureWritableBytes_spec h hlen (.inl hsum) with
    ⟨hthrow, hmax⟩ | ⟨b₁, hensure, hsized, hreadable, hroom⟩
  · rw [hthrow]
    exact .inl ⟨rfl, hmax⟩
  · rw [hensure]
    obtain ⟨r, hcopy, hlength, hbefore, hcopied⟩ := copyInto_spec (hroom hsum)
    have hroom := hroom hsum
    have hbounds := hsized.bounds
    have hwriter : sizeT (b₁.writerIndex_ + data.length) = b₁.writerIndex_ + data.length :=
      sizeT_eq (by omega)
    refine .inr ⟨{ b₁ with buffer_ := r, writerIndex_ := b₁.writerIndex_ + data.length }, ?_,
      ⟨⟨hsized.wf.prepend_le, ?_, ?_⟩, ?_⟩, ?_⟩
    · simp only [Option.bind_some, hcopy, Option.map_some, hwriter]
    · exact hsized.wf.reader_le.trans (Nat.le_add_right _ _)
    · rw [hlength]
      exact hroom
    · rw [hlength]
      exact hsized.size_le
    · -- the copy starts where the readable bytes end
      have hsplit :=
        slice_append_slice r hsized.wf.reader_le (Nat.le_add_right b₁.writerIndex_ data.length)
      rw [hbefore, hcopied] at hsplit
      rw [← hreadable]
      exact hsplit.symm

/-- **`readFd` adds what `readv` delivered at the end**, or throws after the writable part was
    filled. -/
theorem readFd_spec (h : Sized b) {bytes : List Byte} (hbytes : bytes.length ≤ offered b) :
    ∃ b' out, readFd b (some bytes) = some (b', out) ∧ Sized b' ∧
      FifoOutcome b (.readFd (some bytes)) b' out := by
  obtain ⟨hread, hwrite, hsize⟩ := h.bounds
  have hroom : b.writerIndex_ + (bytes.take b.writableBytes).length ≤ b.buffer_.length := by
    simp only [List.length_take, Buffer.writableBytes]
    omega
  obtain ⟨r, hcopy, hlength, hbefore, hcopied⟩ := copyInto_spec hroom
  have hsplit := slice_append_slice r hread
    (Nat.le_add_right b.writerIndex_ (bytes.take b.writableBytes).length)
  rw [hbefore, hcopied] at hsplit
  have hwritable : b.writableBytes = b.buffer_.length - b.writerIndex_ := rfl
  simp only [readFd, h.writableBytes_eq, hcopy, Option.bind_some]
  rcases Nat.lt_or_ge b.writableBytes bytes.length with hlt | hle
  · -- the writable part is full and the rest is appended from the stack buffer
    rw [if_neg (Nat.not_le.mpr hlt)]
    have hfull : b.writerIndex_ + (bytes.take b.writableBytes).length = b.buffer_.length := by
      rw [List.length_take]
      omega
    have hsized : Sized { b with buffer_ := r, writerIndex_ := b.buffer_.length } :=
      ⟨⟨h.wf.prepend_le, hread.trans hwrite, Nat.le_of_eq hlength.symm⟩,
        Nat.le_trans (Nat.le_of_eq hlength) h.size_le⟩
    have hfilled : Buffer.readable { b with buffer_ := r, writerIndex_ := b.buffer_.length } =
        b.readable ++ bytes.take b.writableBytes := by
      rw [Buffer.readable, ← hfull, ← hsplit]
      rfl
    -- what did not fit is at most what the stack buffer holds
    have hrest : (bytes.drop b.writableBytes).length ≤ maxSize := by
      rw [offered, h.writableBytes_eq] at hbytes
      rw [List.length_drop]
      unfold maxSize Buffer.extrabufSize at *
      split at hbytes <;> omega
    rcases append_spec hsized hrest with ⟨hthrow, hmax⟩ | ⟨b', hreturn, hsized', hreadable⟩
    · refine ⟨_, _, hthrow, hsized, ?_, b.writableBytes, hfilled⟩
      simp only [List.length_drop] at hmax
      simp only [BufferOp.len, BufferOp.data]
      omega
    · refine ⟨b', _, hreturn, hsized', rfl, ?_⟩
      rw [hreadable, hfilled, List.append_assoc, List.take_append_drop]
  · rw [if_pos hle, sizeT_eq (by omega)]
    rw [List.take_of_length_le hle] at hsplit hroom
    refine ⟨_, _, rfl, ⟨⟨h.wf.prepend_le, hread.trans (Nat.le_add_right _ _), ?_⟩, ?_⟩, rfl,
      hsplit.symm⟩
    · rw [hlength]
      exact hroom
    · rw [hlength]
      exact h.size_le

/-- `retrieveAsString` returns the bytes that it removes. -/
theorem retrieveAsString_spec (h : Sized b) {len : Nat} (hlen : len ≤ b.readableBytes) :
    ∃ b', retrieveAsString b len = some (b', .returned (b.readable.take len)) ∧ Sized b' ∧
      b'.readable = b.readable.drop len := by
  obtain ⟨hread, hwrite, hsize⟩ := h.bounds
  have hend : b.readerIndex_ + len ≤ b.writerIndex_ := by
    unfold Buffer.readableBytes at hlen
    omega
  have htake : slice b.buffer_ b.readerIndex_ (b.readerIndex_ + len) = b.readable.take len := by
    have hsplit := slice_append_slice b.buffer_ (Nat.le_add_right b.readerIndex_ len) hend
    have hlength : (slice b.buffer_ b.readerIndex_ (b.readerIndex_ + len)).length = len := by
      rw [length_slice (hend.trans hwrite)]
      omega
    rw [Buffer.readable, ← hsplit, List.take_append_of_le_length (Nat.le_of_eq hlength.symm),
      List.take_of_length_le (Nat.le_of_eq hlength)]
  refine ⟨SizedBuffer.retrieve b len, ?_, h.retrieve len, ?_⟩
  · rw [retrieveAsString, if_pos (hend.trans hwrite), htake]
  · rw [h.retrieve_eq]
    exact Buffer.readable_retrieve h.wf len

/-- The condition on a call: the size that `ensureWritableBytes` gives to the vector does not
    wrap. -/
def noWrap (b : Buffer) : BufferOp → Bool
  | .ensureWritableBytes len =>
    decide (b.writerIndex_ + len < 2 ^ 64) || decide (2 ^ 64 ≤ len + kCheapPrepend)
  | _ => true

/-- **What a call does to a well-formed buffer.** It stays in the vector, and it does its step on
    the queue if no size wraps; if one does, the buffer is not well-formed afterwards. -/
theorem exec_spec (h : Sized b) {op : BufferOp} (he : bufferMachine.enabled b op = true) :
    ∃ b' out, exec b op = some (b', out) ∧
      (noWrap b op = true → Sized b' ∧ FifoOutcome b op b' out) ∧
      (b'.WF → noWrap b op = true) := by
  cases op with
  | append data =>
    rcases append_spec h (of_decide_eq_true he) with ⟨hthrow, hmax⟩ | ⟨b', hreturn, hsized, hfifo⟩
    · exact ⟨b, .threw, hthrow, fun _ => ⟨h, hmax, 0, by simp⟩, fun _ => rfl⟩
    · exact ⟨b', _, hreturn, fun _ => ⟨hsized, rfl, hfifo⟩, fun _ => rfl⟩
  | ensureWritableBytes len =>
    have hlen : len < 2 ^ 64 := of_decide_eq_true he
    rcases Classical.em (noWrap b (.ensureWritableBytes len) = true) with hc | hc
    · have hwrap : b.writerIndex_ + len < 2 ^ 64 ∨ 2 ^ 64 ≤ len + kCheapPrepend := by
        simpa [noWrap] using hc
      rcases ensureWritableBytes_spec h hlen hwrap with
        ⟨hthrow, hmax⟩ | ⟨b', hreturn, hsized, hfifo, -⟩
      · exact ⟨b, .threw, hthrow, fun _ => ⟨h, hmax, 0, by simp⟩, fun _ => hc⟩
      · exact ⟨b', _, hreturn, fun _ => ⟨hsized, rfl, hfifo⟩, fun _ => hc⟩
    · have hwrap : 2 ^ 64 ≤ b.writerIndex_ + len ∧ len + kCheapPrepend < 2 ^ 64 := by
        simpa [noWrap] using hc
      -- the vector is shorter than the write position: the buffer is broken
      obtain ⟨b', hreturn, hshort⟩ := ensureWritableBytes_wraps h hlen hwrap.1 hwrap.2
      refine ⟨b', _, hreturn, fun hc' => absurd hc' hc, fun hwf => ?_⟩
      exact absurd hwf.writer_le (Nat.not_le.mpr hshort)
  | retrieve len =>
    refine ⟨_, _, rfl, fun _ => ⟨h.retrieve len, rfl, ?_⟩, fun _ => rfl⟩
    rw [h.retrieve_eq, Buffer.readable_retrieve h.wf]
    rcases Nat.le_total len b.readable.length with hle | hle
    · rw [Nat.min_eq_left hle]
    · rw [Nat.min_eq_right hle, List.drop_of_length_le hle, List.drop_length]
  | retrieveAll =>
    exact ⟨_, _, rfl, fun _ => ⟨⟨h.wf.retrieveAll, h.size_le⟩, rfl, slice_self _ _⟩, fun _ => rfl⟩
  | retrieveAsString len =>
    have hlen : len ≤ readableBytes b := of_decide_eq_true he
    rw [h.readableBytes_eq] at hlen
    obtain ⟨b', hreturn, hsized, hfifo⟩ := retrieveAsString_spec h hlen
    exact ⟨b', _, hreturn, fun _ => ⟨hsized, rfl, hfifo⟩, fun _ => rfl⟩
  | retrieveAllAsString =>
    obtain ⟨b', hreturn, hsized, hfifo⟩ := retrieveAsString_spec h (Nat.le_refl b.readableBytes)
    rw [← h.wf.length_readable, List.take_length] at hreturn
    rw [← h.wf.length_readable, List.drop_length] at hfifo
    refine ⟨b', .returned b.readable, ?_, fun _ => ⟨hsized, rfl, hfifo⟩, fun _ => rfl⟩
    rw [exec, h.readableBytes_eq, ← h.wf.length_readable]
    exact hreturn
  | readFd read =>
    cases read with
    | none => exact ⟨b, _, rfl, fun _ => ⟨h, rfl, rfl⟩, fun _ => rfl⟩
    | some bytes =>
      obtain ⟨b', out, hexec, hsized, hfifo⟩ := readFd_spec h (of_decide_eq_true he)
      exact ⟨b', out, hexec, fun _ => ⟨hsized, hfifo⟩, fun _ => rfl⟩

/-- A buffer that was constructed is well-formed unless its size wrapped. -/
theorem construct_spec {initialSize : Nat} (hsize : initialSize < 2 ^ 64) {b₀ : Buffer}
    (h₀ : construct initialSize = some b₀) :
    b₀.readable = [] ∧ (kCheapPrepend + initialSize < 2 ^ 64 → Sized b₀) ∧
      (b₀.WF → kCheapPrepend + initialSize < 2 ^ 64) := by
  unfold construct at h₀
  split at h₀
  · cases h₀
  · rename_i hmax
    rw [Option.some.injEq] at h₀
    subst h₀
    refine ⟨slice_self _ _, fun hsum => ?_, fun hwf => ?_⟩
    · rw [sizeT_eq hsum] at hmax ⊢
      refine ⟨⟨Nat.le_refl _, Nat.le_refl _, ?_⟩, ?_⟩
      · rw [List.length_replicate]
        exact Nat.le_add_right _ _
      · rw [List.length_replicate]
        exact Nat.not_lt.mp hmax
    · have hle : kCheapPrepend ≤ sizeT (kCheapPrepend + initialSize) := by
        have hwriter := hwf.writer_le
        rwa [List.length_replicate] at hwriter
      unfold sizeT kCheapPrepend at *
      omega

end SizedBuffer

/-! ## §4 Runs -/

end RainWebServer.Net
