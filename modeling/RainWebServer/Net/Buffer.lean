import RainWebServer.Lib.Slice
import Mathlib.Order.Nat

/-!
# Buffer: the Byte Queue of a Connection

Embeds `include/net/Buffer.h` and `src/net/Buffer.cc`. The vector is a list of bytes; a copy
that leaves it is `none`.

## Main results

- `append_spec` : `append` never leaves the vector and adds its bytes at the end
- `readable_retrieve` : `retrieve` removes bytes at the front
-/

namespace RainWebServer.Net

open RainWebServer.Lib

/-- A `char`. -/
abbrev Byte := UInt8

/-! ## §1 The operations -/

/-- `kCheapPrepend`. -/
def kCheapPrepend : Nat := 8

/-- `kInitialSize`. -/
def kInitialSize : Nat := 1024

/-- The members of `Buffer`. -/
structure Buffer where
  buffer_ : List Byte
  readerIndex_ : Nat
  writerIndex_ : Nat
  deriving DecidableEq, Repr

namespace Buffer

/-- The constructor. -/
def new (initialSize : Nat) : Buffer :=
  ⟨List.replicate (kCheapPrepend + initialSize) 0, kCheapPrepend, kCheapPrepend⟩

/-- `readableBytes`. -/
def readableBytes (b : Buffer) : Nat := b.writerIndex_ - b.readerIndex_

/-- `writableBytes`. -/
def writableBytes (b : Buffer) : Nat := b.buffer_.length - b.writerIndex_

/-- `prependableBytes`. -/
def prependableBytes (b : Buffer) : Nat := b.readerIndex_

/-- The bytes `[peek(), peek() + readableBytes())`. -/
def readable (b : Buffer) : List Byte := slice b.buffer_ b.readerIndex_ b.writerIndex_

/-- `retrieveAll`. -/
def retrieveAll (b : Buffer) : Buffer :=
  { b with readerIndex_ := kCheapPrepend, writerIndex_ := kCheapPrepend }

/-- `retrieve`. -/
def retrieve (b : Buffer) (len : Nat) : Buffer :=
  if len < b.readableBytes then { b with readerIndex_ := b.readerIndex_ + len }
  else b.retrieveAll

/-- `std::vector<char>::resize`. -/
def resize (buffer : List Byte) (size : Nat) : List Byte :=
  buffer.take size ++ List.replicate (size - buffer.length) 0

/-- `makeSpace`. -/
def makeSpace (b : Buffer) (len : Nat) : Option Buffer :=
  if b.writableBytes + b.prependableBytes < len + kCheapPrepend then
    some { b with buffer_ := resize b.buffer_ (b.writerIndex_ + len) }
  else do
    let readable := b.readableBytes
    let buffer ← copyInto b.buffer_ kCheapPrepend b.readable
    some ⟨buffer, kCheapPrepend, kCheapPrepend + readable⟩

/-- `ensureWritableBytes`. -/
def ensureWritableBytes (b : Buffer) (len : Nat) : Option Buffer :=
  if b.writableBytes < len then b.makeSpace len else some b

/-- `append`. -/
def append (b : Buffer) (data : List Byte) : Option Buffer := do
  let b ← b.ensureWritableBytes data.length
  let buffer ← copyInto b.buffer_ b.writerIndex_ data
  some { b with buffer_ := buffer, writerIndex_ := b.writerIndex_ + data.length }

/-- `sizeof(extrabuf)`. -/
def extrabufSize : Nat := 65536

/-- The space that `readFd` offers to `readv`: the writable part, and the stack buffer when
    that part is the smaller one. -/
def offered (b : Buffer) : Nat :=
  if b.writableBytes < extrabufSize then b.writableBytes + extrabufSize else b.writableBytes

/-- `readFd` when `readv` has delivered these bytes, the first iovec before the second. On an
    error it leaves the buffer as it is. -/
def readFd (b : Buffer) (bytes : List Byte) : Option Buffer := do
  let writable := b.writableBytes
  let buffer ← copyInto b.buffer_ b.writerIndex_ (bytes.take writable)
  if bytes.length ≤ writable then
    some { b with buffer_ := buffer, writerIndex_ := b.writerIndex_ + bytes.length }
  else
    Buffer.append { b with buffer_ := buffer, writerIndex_ := b.buffer_.length }
      (bytes.drop writable)

/-! ## §2 Well-formed buffers -/

/-- The three areas of the vector are in order. -/
structure WF (b : Buffer) : Prop where
  prepend_le : kCheapPrepend ≤ b.readerIndex_
  reader_le : b.readerIndex_ ≤ b.writerIndex_
  writer_le : b.writerIndex_ ≤ b.buffer_.length

variable {b : Buffer}

theorem WF.length_readable (h : b.WF) : b.readable.length = b.readableBytes :=
  length_slice h.writer_le

theorem WF.readable_eq_nil_iff (h : b.WF) : b.readable = [] ↔ b.readableBytes = 0 := by
  rw [← h.length_readable, List.length_eq_zero_iff]

theorem wf_new (initialSize : Nat) : (new initialSize).WF :=
  ⟨le_refl _, le_refl _, by simp [new]⟩

theorem readable_new (initialSize : Nat) : (new initialSize).readable = [] :=
  slice_self _ _

theorem WF.retrieveAll (h : b.WF) : b.retrieveAll.WF :=
  ⟨le_refl _, le_refl _, h.prepend_le.trans (h.reader_le.trans h.writer_le)⟩

theorem WF.retrieve (h : b.WF) (len : Nat) : (b.retrieve len).WF := by
  unfold Buffer.retrieve
  split
  · rename_i hlen
    simp only [readableBytes] at hlen
    refine ⟨h.prepend_le.trans (Nat.le_add_right _ _), ?_, h.writer_le⟩
    show b.readerIndex_ + len ≤ b.writerIndex_
    omega
  · exact h.retrieveAll

/-- **`retrieve` removes bytes at the front.** -/
theorem readable_retrieve (h : b.WF) (len : Nat) :
    (b.retrieve len).readable = b.readable.drop len := by
  unfold Buffer.retrieve
  split
  · rw [readable, readable, drop_slice]
  · rename_i hlen
    rw [List.drop_eq_nil_of_le (by rw [h.length_readable]; omega)]
    exact slice_self _ _

theorem length_resize (buffer : List Byte) (size : Nat) : (resize buffer size).length = size := by
  simp only [resize, List.length_append, List.length_take, List.length_replicate]
  omega

/-- Moving the readable bytes to the front keeps them. -/
theorem slide_spec (h : b.WF) :
    ∃ r, copyInto b.buffer_ kCheapPrepend b.readable = some r ∧ r.length = b.buffer_.length ∧
      WF ⟨r, kCheapPrepend, kCheapPrepend + b.readableBytes⟩ ∧
      readable ⟨r, kCheapPrepend, kCheapPrepend + b.readableBytes⟩ = b.readable := by
  obtain ⟨hprep, hread, hwrite⟩ := id h
  have hcount : b.readable.length = b.writerIndex_ - b.readerIndex_ := h.length_readable
  obtain ⟨r, hcopy, hlength, -, hcopied⟩ :=
    copyInto_spec (show kCheapPrepend + b.readable.length ≤ b.buffer_.length by omega)
  refine ⟨r, hcopy, hlength, ⟨le_refl _, Nat.le_add_right _ _, ?_⟩, ?_⟩
  · simp only [hlength, readableBytes]
    omega
  · rw [← h.length_readable]
    exact hcopied

/-- `makeSpace` stays inside the vector, makes the space and keeps the readable bytes. -/
theorem makeSpace_spec (h : b.WF) {len : Nat} (hlen : b.writableBytes < len) :
    ∃ b', b.makeSpace len = some b' ∧ b'.WF ∧ b'.readable = b.readable ∧
      b'.writerIndex_ + len ≤ b'.buffer_.length := by
  obtain ⟨hprep, hread, hwrite⟩ := id h
  simp only [writableBytes] at hlen
  unfold makeSpace
  split
  · -- the vector grows behind the readable bytes
    refine ⟨_, rfl, ⟨hprep, hread, ?_⟩, ?_, ?_⟩
    · rw [length_resize]
      exact Nat.le_add_right _ _
    · simp only [readable, resize]
      rw [List.take_of_length_le (by omega)]
      exact slice_append_left _ hwrite
    · exact le_of_eq (length_resize _ _).symm
  · -- the readable bytes move to the front of the vector
    rename_i hroom
    simp only [writableBytes, prependableBytes] at hroom
    obtain ⟨r, hcopy, hlength, hwf, hreadable⟩ := slide_spec h
    refine ⟨⟨r, kCheapPrepend, kCheapPrepend + b.readableBytes⟩, ?_, hwf, hreadable, ?_⟩
    · simp only [hcopy, Option.bind_eq_bind, Option.bind_some]
    · simp only [hlength, readableBytes]
      omega

/-- `ensureWritableBytes` makes the space it is asked for. -/
theorem ensureWritableBytes_spec (h : b.WF) (len : Nat) :
    ∃ b', b.ensureWritableBytes len = some b' ∧ b'.WF ∧ b'.readable = b.readable ∧
      b'.writerIndex_ + len ≤ b'.buffer_.length := by
  unfold ensureWritableBytes
  split
  · rename_i hlen
    exact makeSpace_spec h hlen
  · rename_i hlen
    refine ⟨b, rfl, h, rfl, ?_⟩
    have hwrite := h.writer_le
    simp only [writableBytes] at hlen
    omega

/-- **`append` adds its bytes at the end** and never writes outside the vector. -/
theorem append_spec (h : b.WF) (data : List Byte) :
    ∃ b', b.append data = some b' ∧ b'.WF ∧ b'.readable = b.readable ++ data := by
  obtain ⟨b₁, hensure, hwf, hreadable, hroom⟩ := ensureWritableBytes_spec h data.length
  obtain ⟨r, hcopy, hlength, hbefore, hcopied⟩ := copyInto_spec hroom
  refine ⟨{ b₁ with buffer_ := r, writerIndex_ := b₁.writerIndex_ + data.length }, ?_, ?_, ?_⟩
  · simp only [append, hensure, hcopy, Option.bind_eq_bind, Option.bind_some]
  · exact ⟨hwf.prepend_le, hwf.reader_le.trans (Nat.le_add_right _ _), by
      simp only [hlength]
      exact hroom⟩
  · have hsplit := slice_append_slice r hwf.reader_le (Nat.le_add_right b₁.writerIndex_ data.length)
    rw [hbefore, hcopied] at hsplit
    rw [← hreadable]
    exact hsplit.symm

/-- `readFd` adds the bytes it read at the end, through the stack buffer if need be. -/
theorem readFd_spec (h : b.WF) (bytes : List Byte) :
    ∃ b', b.readFd bytes = some b' ∧ b'.WF ∧ b'.readable = b.readable ++ bytes := by
  obtain ⟨hprep, hread, hwrite⟩ := id h
  have hroom : b.writerIndex_ + (bytes.take b.writableBytes).length ≤ b.buffer_.length := by
    simp only [List.length_take, writableBytes]
    omega
  obtain ⟨r, hcopy, hlength, hbefore, hcopied⟩ := copyInto_spec hroom
  have hsplit := slice_append_slice r hread
    (Nat.le_add_right b.writerIndex_ (bytes.take b.writableBytes).length)
  rw [hbefore, hcopied] at hsplit
  simp only [readFd, hcopy, Option.bind_eq_bind, Option.bind_some]
  split
  · rename_i hle
    rw [List.take_of_length_le hle] at hsplit hroom
    refine ⟨_, rfl, ⟨hprep, hread.trans (Nat.le_add_right _ _), ?_⟩, hsplit.symm⟩
    rw [hlength]
    exact hroom
  · -- the writable part is full and the rest is appended from the stack buffer
    rename_i hle
    have hfull : b.writerIndex_ + (bytes.take b.writableBytes).length = b.buffer_.length := by
      simp only [List.length_take, writableBytes] at hle ⊢
      omega
    have hwf₁ : Buffer.WF { b with buffer_ := r, writerIndex_ := b.buffer_.length } :=
      ⟨hprep, hread.trans hwrite, le_of_eq hlength.symm⟩
    obtain ⟨b', happ, hwf', hreadable'⟩ := append_spec hwf₁ (bytes.drop b.writableBytes)
    refine ⟨b', happ, hwf', ?_⟩
    rw [hreadable', readable, ← hfull, ← hsplit, List.append_assoc, List.take_append_drop,
      readable]

end Buffer

end RainWebServer.Net
