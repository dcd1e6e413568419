import RainWebServer.Lib.Admission
import RainWebServer.Log.LogStream

/-!
# LogStream: the Bounds of the Array

`LogStream` writes through pointers that nothing checks, and keeps its cursor twice, as a pointer
and as an `int`. Here its calls are embedded once more, with what the first embedding leaves out:
the array has its `n` bytes and no others, every store and every load is checked, a pointer cannot
move past the end, `memcpy` and `std::reverse` go byte by byte, and the counter wraps as an `int`.

The streams of `LogStream` are the abstraction. On those that a program can reach no check fails,
so the calls here do what the calls there do.

## Main results

- `storeDigits_clip`, `reverse_clip` : the loops, as long as they stay inside of the array
- `shiftLeft_toArray` : an operand, by refinement
- `arrayMachine_spec` : the array after any calls
-/

namespace RainWebServer.Log

open RainWebServer.Lib

/-! ## §1 The array -/

section Array

variable {n : Nat}

/-- `*p = c` for a pointer to offset `i`. Outside of the array it is a fault. -/
def store (data : Fin n → Byte) (i : Nat) (c : Byte) : Option (Fin n → Byte) :=
  if h : i < n then some (Function.update data ⟨i, h⟩ c) else none

/-- `*p` for a pointer to offset `i`. -/
def load (data : Fin n → Byte) (i : Nat) : Option Byte :=
  if h : i < n then some (data ⟨i, h⟩) else none

/-- `memcpy` of the bytes `buf` to offset `dst`. -/
def storeAll : (Fin n → Byte) → Nat → List Byte → Option (Fin n → Byte)
  | data, _, [] => some data
  | data, dst, c :: buf => do
    let data ← store data dst c
    storeAll data (dst + 1) buf

/-- The loop of `formatInteger`, with at most `fuel` iterations: the array and `cur` after it. -/
def storeDigits : Nat → (Fin n → Byte) → Nat → Int → Option ((Fin n → Byte) × Nat)
  | 0, _, _, _ => none
  | fuel + 1, data, cur, num => do
    let c ← zeroAt (num.tmod 10)
    let data ← store data cur c
    let num := num.tdiv 10
    if num ≠ 0 then storeDigits fuel data (cur + 1) num else some (data, cur + 1)

/-- So many swaps of `*first++` and `*--last`. -/
def swapLoop : Nat → (Fin n → Byte) → Nat → Nat → Option (Fin n → Byte)
  | 0, data, _, _ => some data
  | k + 1, data, first, last => do
    let a ← load data first
    let b ← load data (last - 1)
    let data ← store data first b
    let data ← store data (last - 1) a
    swapLoop k data (first + 1) (last - 1)

/-- `std::reverse(start, cur)`, which swaps half of the range with the other half. -/
def reverse (data : Fin n → Byte) (start cur : Nat) : Option (Fin n → Byte) :=
  swapLoop ((cur - start) / 2) data start cur

/-- The bytes that an array of size `n` has. -/
def clip (n : Nat) (data : Nat → Byte) : Fin n → Byte := fun i => data i

theorem store_clip (data : Nat → Byte) {i : Nat} (h : i < n) (c : Byte) :
    store (clip n data) i c = some (clip n (Function.update data i c)) := by
  rw [store, dif_pos h, Option.some.injEq]
  funext j
  by_cases hj : j.val = i
  · subst hj
    simp [clip]
  · have hne : j ≠ ⟨i, h⟩ := fun heq => hj (congrArg Fin.val heq)
    simp [clip, hj, hne]

theorem load_clip (data : Nat → Byte) {i : Nat} (h : i < n) :
    load (clip n data) i = some (data i) :=
  dif_pos h

theorem storeAll_clip (data : Nat → Byte) {dst : Nat} {buf : List Byte}
    (h : dst + buf.length ≤ n) :
    storeAll (clip n data) dst buf = some (clip n (memcpy data dst buf)) := by
  induction buf generalizing data dst with
  | nil => rw [FixedBuffer.memcpy_nil, storeAll]
  | cons c buf ih =>
    rw [List.length_cons] at h
    have hfirst : dst < n := by omega
    have hrest : dst + 1 + buf.length ≤ n := by omega
    rw [storeAll, store_clip data hfirst, ← FixedBuffer.memcpy_cons]
    exact ih _ hrest

/-- The loop writes at least one digit. -/
theorem lt_of_digitLoop {fuel : Nat} {data data' : Nat → Byte} {cur last : Nat} {num : Int}
    (h : digitLoop fuel data cur num = some (data', last)) : cur < last := by
  induction fuel generalizing data cur num with
  | zero => cases h
  | succ fuel ih =>
    rw [digitLoop] at h
    obtain ⟨c, -, hrest⟩ := Option.bind_eq_some_iff.mp h
    dsimp only at hrest
    split at hrest
    · exact Nat.lt_of_succ_lt (ih hrest)
    · cases hrest
      exact Nat.lt_succ_self cur

/-- **The digit loop** makes the same stores if its last one is inside of the array. -/
theorem storeDigits_clip {fuel : Nat} {data data' : Nat → Byte} {cur last : Nat} {num : Int}
    (h : digitLoop fuel data cur num = some (data', last)) (hlast : last ≤ n) :
    storeDigits fuel (clip n data) cur num = some (clip n data', last) := by
  induction fuel generalizing data cur num with
  | zero => cases h
  | succ fuel ih =>
    -- this store is before the last one
    have hcur : cur < n := Nat.lt_of_lt_of_le (lt_of_digitLoop h) hlast
    rw [digitLoop] at h
    obtain ⟨c, hc, hrest⟩ := Option.bind_eq_some_iff.mp h
    simp only [storeDigits, hc, store_clip data hcur, Option.bind_eq_bind, Option.bind_some]
    dsimp only at hrest
    split at hrest
    · rename_i hmore
      rw [if_pos hmore]
      exact ih hrest
    · rename_i hdone
      cases hrest
      rw [if_neg hdone]

/-- A range of at most one byte is its own reversal. -/
theorem reverseRange_of_le (data : Nat → Byte) {first last : Nat} (h : last ≤ first + 1) :
    reverseRange data first last = data := by
  funext i
  unfold reverseRange
  split
  · rename_i hin
    congr 1
    omega
  · rfl

/-- Swapping the ends and reversing what is between them reverses the range. -/
theorem reverseRange_swap (data : Nat → Byte) {first last : Nat} (h : first + 1 < last) :
    reverseRange (Function.update (Function.update data first (data (last - 1))) (last - 1)
      (data first)) (first + 1) (last - 1) = reverseRange data first last := by
  funext i
  unfold reverseRange
  by_cases hfirst : i = first
  · subst hfirst
    have hout : ¬(i + 1 ≤ i ∧ i < last - 1) := by omega
    have hin : i ≤ i ∧ i < last := by omega
    have hmirror : i + last - 1 - i = last - 1 := by omega
    rw [if_neg hout, if_pos hin, hmirror, Function.update_of_ne (by omega), Function.update_self]
  · by_cases hlast : i = last - 1
    · subst hlast
      have hout : ¬(first + 1 ≤ last - 1 ∧ last - 1 < last - 1) := by omega
      have hin : first ≤ last - 1 ∧ last - 1 < last := by omega
      have hmirror : first + last - 1 - (last - 1) = first := by omega
      rw [if_neg hout, if_pos hin, hmirror, Function.update_self]
    · -- the inner bytes have the same mirror positions in both ranges
      have hmirror : first + 1 + (last - 1) - 1 - i = first + last - 1 - i := by omega
      by_cases hin : first ≤ i ∧ i < last
      · have hin' : first + 1 ≤ i ∧ i < last - 1 := by omega
        rw [if_pos hin, if_pos hin', hmirror, Function.update_of_ne (by omega),
          Function.update_of_ne (by omega)]
      · have hout : ¬(first + 1 ≤ i ∧ i < last - 1) := by omega
        rw [if_neg hin, if_neg hout, Function.update_of_ne hlast, Function.update_of_ne hfirst]

/-- **The swaps** reverse a range that is inside of the array. -/
theorem reverse_clip (data : Nat → Byte) {first last : Nat} (h : last ≤ n) :
    reverse (clip n data) first last = some (clip n (reverseRange data first last)) := by
  unfold reverse
  generalize hk : (last - first) / 2 = k
  induction k generalizing data first last with
  | zero =>
    rw [reverseRange_of_le data (by omega)]
    rfl
  | succ k ih =>
    have hfirst : first < n := by omega
    have hlast : last - 1 < n := by omega
    have hinner : (last - 1 - (first + 1)) / 2 = k := by omega
    simp only [swapLoop, load_clip data hfirst, load_clip data hlast, store_clip data hfirst,
      store_clip _ hlast, Option.bind_eq_bind, Option.bind_some]
    rw [ih _ (Nat.le_trans (Nat.sub_le last 1) h) hinner, reverseRange_swap data (by omega)]

end Array

/-! ## §2 The stream -/

/-- The members of `FixedBuffer<bufferSize>`; `cur_` is an offset from `data_`. -/
structure ArrayBuffer (bufferSize : Nat) where
  data_ : Fin bufferSize → Byte
  cur_ : Nat
  size_ : Int

namespace ArrayBuffer

variable {n : Nat}

/-- The constructor. -/
def new (junk : Fin n → Byte) : ArrayBuffer n := ⟨junk, 0, 0⟩

/-- `avail()`. -/
def avail (b : ArrayBuffer n) : Nat := sizeOfInt (n - b.size_)

/-- `add`. The sum of an `int` and a `size_t` is a `size_t`, which is converted back; a pointer
    that leaves the array, except to its end, is a fault. -/
def add (b : ArrayBuffer n) (len : Nat) : Option (ArrayBuffer n) :=
  if b.cur_ + len ≤ n then
    some { b with cur_ := b.cur_ + len, size_ := intOfSize (sizeOfInt b.size_ + len) }
  else none

/-- `append`. -/
def append (b : ArrayBuffer n) (buf : List Byte) : Option (ArrayBuffer n) :=
  if b.avail > buf.length then do
    let data ← storeAll b.data_ b.cur_ buf
    { b with data_ := data }.add buf.length
  else some b

/-- `reset`. -/
def reset (b : ArrayBuffer n) : ArrayBuffer n := { b with cur_ := 0, size_ := 0 }

/-- `toString()`: the bytes `[data_, data_ + length())`, as far as there are any. -/
def content (b : ArrayBuffer n) : List Byte := (List.ofFn b.data_).take b.size_.toNat

end ArrayBuffer

/-- The member of `LogStream`. -/
structure ArrayStream where
  buffer_ : ArrayBuffer kSmallBufferSize

namespace ArrayStream

/-- The constructor. -/
def new (junk : Fin kSmallBufferSize → Byte) : ArrayStream := ⟨.new junk⟩

/-- `reset_buffer`. -/
def resetBuffer (s : ArrayStream) : ArrayStream := ⟨s.buffer_.reset⟩

/-- `formatInteger`. -/
def formatInteger (s : ArrayStream) (num : Int) : Option ArrayStream :=
  if s.buffer_.avail ≥ kMaxNumberSize then do
    let start := s.buffer_.cur_
    let (data, cur) ← storeDigits (num.natAbs + 1) s.buffer_.data_ start num
    let (data, cur) ←
      if num < 0 then (store data cur (ch '-')).map fun data => (data, cur + 1)
      else some (data, cur)
    let data ← store data cur 0
    let data ← reverse data start cur
    let length := intOfSize (cur - start)
    ({ s.buffer_ with data_ := data }.add (sizeOfInt length)).map ArrayStream.mk
  else some s

/-- `buffer_.append` of the first `len` bytes at a pointer to `data`. To read beyond `data` is a
    fault. -/
def appendFrom (s : ArrayStream) (data : List Byte) (len : Nat) : Option ArrayStream :=
  if s.buffer_.avail > len then
    if len ≤ data.length then (s.buffer_.append (data.take len)).map ArrayStream.mk else none
  else some s

/-- `append`. -/
def append (s : ArrayStream) (buffer : List Byte) (len : Int) : Option ArrayStream :=
  s.appendFrom buffer (sizeOfInt len)

/-- `operator<<`. -/
def shiftLeft (s : ArrayStream) : Operand → Option ArrayStream
  | .bool express => s.appendFrom
      (if express then chars ['t', 'r', 'u', 'e'] else chars ['f', 'a', 'l', 's', 'e'])
      (if express then 4 else 5)
  | .integer _ number => s.formatInteger number
  | .floating text => s.appendFrom text text.length
  | .char str => s.appendFrom [str] 1
  | .charPtr str => s.appendFrom str (cString str).length
  | .string str => s.appendFrom str str.length
  | .generalTemplate data len => s.appendFrom data (sizeOfInt len)

end ArrayStream

/-- The caller's part of a call. The bytes that a length says are there, unless it is so long that
    none is read. -/
def Operand.readable : Operand → Bool
  | .generalTemplate data len => decide (IntType.int.InRange len) &&
      (decide (len ≤ data.length) || decide ((kSmallBufferSize : Int) ≤ len))
  | operand => operand.valid

def StreamOp.readable : StreamOp → Bool
  | .shiftLeft operand => operand.readable
  | .append buffer len => (Operand.generalTemplate buffer len).readable
  | .resetBuffer => true

/-- The calls of a stream. -/
def arrayMachine : Machine ArrayStream StreamOp where
  enabled _ op := op.readable
  step s
    | .shiftLeft operand => s.shiftLeft operand
    | .append buffer len => s.append buffer len
    | .resetBuffer => some s.resetBuffer

/-! ## §3 Refinement -/

/-- The stream in memory. -/
def LogStream.toArray (s : LogStream) : ArrayStream :=
  ⟨⟨clip kSmallBufferSize s.buffer_.data_, s.buffer_.cur_, s.buffer_.size_⟩⟩

theorem sizeOfInt_natCast {k : Nat} (h : k < 2 ^ 63) : sizeOfInt k = k := by
  unfold sizeOfInt
  omega

theorem intOfSize_of_lt {k : Nat} (h : k < 2 ^ 31) : intOfSize k = k := by
  unfold intOfSize
  omega

namespace LogStream

variable {s : LogStream}

@[simp] theorem data_toArray (s : LogStream) :
    s.toArray.buffer_.data_ = clip kSmallBufferSize s.buffer_.data_ := rfl

@[simp] theorem cur_toArray (s : LogStream) : s.toArray.buffer_.cur_ = s.buffer_.cur_ := rfl

@[simp] theorem avail_toArray (s : LogStream) : s.toArray.buffer_.avail = s.buffer_.avail := rfl

/-- The two cursors move together, and the counter does not wrap. -/
theorem add_toArray (h : s.buffer_.WF) (data : Nat → Byte) {len : Nat}
    (hlen : s.buffer_.size_ + len < kSmallBufferSize) :
    ({ s.toArray.buffer_ with data_ := clip kSmallBufferSize data }.add len).map ArrayStream.mk =
      some (LogStream.mk ({ s.buffer_ with data_ := data }.add len)).toArray := by
  have hcur := h.cur_eq
  have hend : s.buffer_.cur_ + len ≤ kSmallBufferSize := by omega
  have hsmall : s.buffer_.size_ + len < 4000 := hlen
  have hsize : intOfSize (sizeOfInt s.buffer_.size_ + len) =
      ((s.buffer_.size_ + len : Nat) : Int) := by
    rw [sizeOfInt_natCast (by omega)]
    exact intOfSize_of_lt (by omega)
  simp only [ArrayBuffer.add, toArray, FixedBuffer.add, if_pos hend, hsize, Option.map_some]

/-- `append` copies to places of the array. -/
theorem appendFrom_toArray (h : s.buffer_.WF) (data : List Byte) (len : Nat) :
    s.toArray.appendFrom data len = (s.appendFrom data len).map toArray := by
  rw [appendFrom, ArrayStream.appendFrom, avail_toArray]
  by_cases hfits : s.buffer_.avail > len
  · rw [if_pos hfits, if_pos hfits]
    by_cases hlen : len ≤ data.length
    · rw [if_pos hlen, if_pos hlen, Option.map_some]
      have htake : (data.take len).length = len := by
        rw [List.length_take]
        exact Nat.min_eq_left hlen
      have hfits' : s.buffer_.avail > (data.take len).length := htake.symm ▸ hfits
      have hroom : s.buffer_.size_ + (data.take len).length < kSmallBufferSize := by
        rw [h.avail_eq (by decide)] at hfits'
        omega
      have hend : s.buffer_.cur_ + (data.take len).length ≤ kSmallBufferSize := by
        rw [h.cur_eq]
        exact Nat.le_of_lt hroom
      rw [ArrayBuffer.append, avail_toArray, if_pos hfits', FixedBuffer.append, if_pos hfits',
        data_toArray, cur_toArray, storeAll_clip s.buffer_.data_ hend]
      exact add_toArray h _ hroom
    · rw [if_neg hlen, if_neg hlen, Option.map_none]
  · rw [if_neg hfits, if_neg hfits, Option.map_some]

/-- Behind the last character of an integer there is a place for the NUL. -/
theorem storeNul_toArray (h : s.buffer_.WF) (data : Nat → Byte) {cur : Nat}
    (hcur : s.buffer_.cur_ ≤ cur) (hroom : cur < kSmallBufferSize) :
    (do
      let data ← store (clip kSmallBufferSize data) cur 0
      let data ← reverse data s.buffer_.cur_ cur
      let length := intOfSize (cur - s.buffer_.cur_)
      ({ s.toArray.buffer_ with data_ := data }.add (sizeOfInt length)).map ArrayStream.mk) =
      some (LogStream.mk ({ s.buffer_ with
        data_ := reverseRange (Function.update data cur 0) s.buffer_.cur_ cur }.add
          (cur - s.buffer_.cur_))).toArray := by
  have hsmall : cur < 4000 := hroom
  have hlength : sizeOfInt (intOfSize (cur - s.buffer_.cur_)) = cur - s.buffer_.cur_ := by
    rw [intOfSize_of_lt (by omega)]
    exact sizeOfInt_natCast (by omega)
  have hsum : s.buffer_.size_ + (cur - s.buffer_.cur_) < kSmallBufferSize := by
    rw [← h.cur_eq, Nat.add_sub_cancel' hcur]
    exact hroom
  simp only [store_clip data hroom, reverse_clip _ (Nat.le_of_lt hroom), hlength,
    Option.bind_eq_bind, Option.bind_some]
  exact add_toArray h _ hsum

/-- **`formatInteger`** stores its digits, the sign and the NUL at places of the array. -/
theorem formatInteger_toArray (h : s.buffer_.WF) {num : Int}
    (hlength : (decimal num).length ≤ 20) :
    s.toArray.formatInteger num = (s.formatInteger num).map toArray := by
  rw [formatInteger, ArrayStream.formatInteger, avail_toArray]
  by_cases havail : s.buffer_.avail ≥ kMaxNumberSize
  · rw [if_pos havail, if_pos havail]
    have hloop := digitLoop_spec s.buffer_.data_ s.buffer_.cur_ (Nat.lt_succ_self num.natAbs)
    rw [decimal, List.length_append, List.length_map, numeral, List.length_reverse] at hlength
    generalize memcpy s.buffer_.data_ s.buffer_.cur_ _ = data at hloop
    generalize (lowDigits 10 num.natAbs).length = digits at hloop hlength
    have hstart : s.buffer_.cur_ + 32 ≤ kSmallBufferSize := by
      have hlt := h.size_lt
      rw [h.avail_eq (by decide)] at havail
      rw [h.cur_eq]
      unfold kMaxNumberSize at havail
      omega
    have hend : s.buffer_.cur_ + digits ≤ kSmallBufferSize := by omega
    have hnul : s.buffer_.cur_ + digits + 1 < kSmallBufferSize := by omega
    simp only [data_toArray, cur_toArray, storeDigits_clip hloop hend, hloop, Option.map_some,
      Option.bind_eq_bind, Option.bind_some]
    by_cases hneg : num < 0
    · rw [if_pos hneg, if_pos hneg, store_clip data (Nat.lt_of_succ_lt hnul), Option.map_some]
      exact storeNul_toArray h (Function.update data (s.buffer_.cur_ + digits) (ch '-'))
        (Nat.le_add_right _ (digits + 1)) hnul
    · rw [if_neg hneg, if_neg hneg]
      exact storeNul_toArray h data (Nat.le_add_right _ digits) (Nat.lt_of_succ_lt hnul)
  · rw [if_neg havail, if_neg havail, Option.map_some]

/-- **`operator<<`** makes no access outside of the array. -/
theorem shiftLeft_toArray (h : s.buffer_.WF) {operand : Operand}
    (hreadable : operand.readable = true) :
    s.toArray.shiftLeft operand = (s.shiftLeft operand).map toArray := by
  cases operand with
  | bool => exact appendFrom_toArray h _ _
  | integer T number =>
    have hrange : T.InRange number := of_decide_eq_true hreadable
    exact formatInteger_toArray h (length_decimal_le hrange)
  | floating => exact appendFrom_toArray h _ _
  | char => exact appendFrom_toArray h _ _
  | charPtr => exact appendFrom_toArray h _ _
  | string => exact appendFrom_toArray h _ _
  | generalTemplate => exact appendFrom_toArray h _ _

/-- An operand is taken whole or not at all also if it is too long to be read. -/
theorem shiftLeft_readable (h : s.buffer_.WF) {operand : Operand}
    (hreadable : operand.readable = true) :
    ∃ s', s.shiftLeft operand = some s' ∧
      Adds s s' (if operand.fits s.buffer_.avail then operand.text else []) := by
  cases operand with
  | generalTemplate data len =>
    simp only [Operand.readable, Bool.and_eq_true, Bool.or_eq_true, decide_eq_true_eq] at hreadable
    obtain ⟨hrange, hlen⟩ := hreadable
    simp only [Operand.fits, decide_eq_true_eq]
    apply appendFrom_spec h
    intro hfits
    rcases hlen with hlen | hlong
    · exact sizeOfInt_fits h hrange hlen hfits
    · -- no stream has so much space
      have hconvert : (sizeOfInt len : Int) = len := by
        unfold sizeOfInt
        simp only [IntType.InRange, IntType.signed, IntType.bits, if_true] at hrange
        unfold kSmallBufferSize at hlong
        omega
      rw [h.avail_eq (by decide)] at hfits
      omega
  | _ => exact shiftLeft_spec h hreadable

/-- The array has the content of the stream. -/
theorem content_toArray (h : s.buffer_.WF) :
    s.toArray.buffer_.content = s.buffer_.content := by
  have hlt := h.size_lt
  apply List.ext_getElem
  · simp only [ArrayBuffer.content, toArray, FixedBuffer.content, List.length_take,
      List.length_ofFn, List.length_map, List.length_range, Int.toNat_natCast]
    omega
  · intro i _ _
    simp [ArrayBuffer.content, FixedBuffer.content, toArray, clip]

end LogStream

/-! ## §4 Runs -/

/-- The operands that a stream with so much space takes. -/
def acceptedOperands (room : Nat) (operands : List Operand) : List Operand :=
  admitted Operand.fits Operand.text room operands

/-- One more operand is taken if there is space for it behind the accepted texts. -/
theorem acceptedOperands_concat (room : Nat) (operands : List Operand) (operand : Operand) :
    acceptedOperands room (operands ++ [operand]) =
      if operand.fits
        (room - ((acceptedOperands room operands).flatMap Operand.text).length) then
        acceptedOperands room operands ++ [operand]
      else acceptedOperands room operands :=
  admitted_concat _ _ _ _ _

/-- What a call does to the operands that were passed since the last reset. -/
def StreamOp.pass (operands : List Operand) : StreamOp → List Operand
  | .shiftLeft operand => operands ++ [operand]
  | .append buffer len => operands ++ [.generalTemplate buffer len]
  | .resetBuffer => []

/-- The operands that were passed since the last reset. -/
def sinceReset (ops : List StreamOp) : List Operand := ops.foldl StreamOp.pass []

theorem sinceReset_concat (ops : List StreamOp) (op : StreamOp) :
    sinceReset (ops ++ [op]) = op.pass (sinceReset ops) := by
  rw [sinceReset, List.foldl_append]
  rfl

/-- The stream is well-formed, and its content is the texts of the operands that were accepted of
    those that were passed. -/
structure Holds (operands : List Operand) (s : LogStream) : Prop where
  wf : s.buffer_.WF
  content :
    s.buffer_.content = (acceptedOperands kSmallBufferSize operands).flatMap Operand.text

theorem Holds.empty {s : LogStream} (hwf : s.buffer_.WF) (hcontent : s.buffer_.content = []) :
    Holds [] s :=
  ⟨hwf, hcontent⟩

/-- One more operand, on the array. -/
theorem Holds.shiftLeft {s : LogStream} {operands : List Operand} (h : Holds operands s)
    {operand : Operand} (hreadable : operand.readable = true) :
    ∃ s', s.toArray.shiftLeft operand = some s'.toArray ∧ Holds (operands ++ [operand]) s' := by
  obtain ⟨s', hcall, hadds⟩ := LogStream.shiftLeft_readable h.wf hreadable
  -- the space that is left is what the accepted texts leave
  rw [LogStream.avail_eq h.wf, h.content] at hadds
  refine ⟨s', ?_, hadds.wf, ?_⟩
  · rw [LogStream.shiftLeft_toArray h.wf hreadable, hcall, Option.map_some]
  · rw [hadds.content, h.content, acceptedOperands_concat]
    split
    · rw [List.flatMap_append, List.flatMap_singleton]
    · rw [List.append_nil]

/-- One call, on the array. -/
theorem arrayMachine_step {s : LogStream} {operands : List Operand} (h : Holds operands s)
    {op : StreamOp} (hreadable : op.readable = true) :
    ∃ s', arrayMachine.step s.toArray op = some s'.toArray ∧ Holds (op.pass operands) s' := by
  cases op with
  | shiftLeft operand => exact h.shiftLeft hreadable
  | append buffer len =>
    -- the call of `operator<<` for a `GeneralTemplate` is the same
    have hsame : (Operand.generalTemplate buffer len).readable = true := hreadable
    exact h.shiftLeft hsame
  | resetBuffer =>
    obtain ⟨hwf, hcontent⟩ := FixedBuffer.wf_reset h.wf
    exact ⟨s.resetBuffer, rfl, Holds.empty hwf hcontent⟩

/-- A new array is the first bytes of some memory. -/
theorem new_toArray (junk : Fin kSmallBufferSize → Byte) :
    ∃ s : LogStream, s.toArray = .new junk ∧ Holds [] s := by
  let memory : Nat → Byte := fun i => if hi : i < kSmallBufferSize then junk ⟨i, hi⟩ else 0
  have hclip : clip kSmallBufferSize memory = junk := funext fun i => dif_pos i.isLt
  obtain ⟨hwf, hcontent⟩ := FixedBuffer.wf_new (n := kSmallBufferSize) (by decide) memory
  refine ⟨.new memory, ?_, Holds.empty hwf hcontent⟩
  rw [LogStream.toArray, LogStream.new, FixedBuffer.new, hclip]
  rfl

/-- No run of calls faults on the array. -/
theorem arrayMachine_run (junk : Fin kSmallBufferSize → Byte) {ops : List StreamOp}
    (h : ∀ op ∈ ops, op.readable = true) :
    ∃ s : LogStream, arrayMachine.Reaches (.new junk) ops s.toArray ∧
      Holds (sinceReset ops) s := by
  -- on the calls, from the last one on
  induction ops using List.reverseRecOn with
  | nil =>
    obtain ⟨s, hnew, hholds⟩ := new_toArray junk
    rw [← hnew]
    exact ⟨s, .refl, hholds⟩
  | append_singleton ops op ih =>
    obtain ⟨s, hrun, hholds⟩ := ih fun o ho => h o (List.mem_append_left _ ho)
    have hreadable := h op (List.mem_append_right _ (List.mem_singleton_self op))
    obtain ⟨s', hstep, hholds'⟩ := arrayMachine_step hholds hreadable
    rw [sinceReset_concat]
    exact ⟨s', hrun.snoc hreadable hstep, hholds'⟩

/-- **The buffer after any calls.** Whatever is passed to a stream, in any order: no call stores or
    loads outside of the array, the two cursors agree and leave a byte free, and the content is the
    texts of the operands that were accepted since the last reset, in their order. -/
theorem arrayMachine_spec (junk : Fin kSmallBufferSize → Byte) {ops : List StreamOp}
    (h : ∀ op ∈ ops, op.readable = true) :
    ∃ s, arrayMachine.run (.new junk) ops = some s ∧
      (s.buffer_.cur_ : Int) = s.buffer_.size_ ∧
      0 ≤ s.buffer_.size_ ∧ s.buffer_.size_ ≤ kSmallBufferSize - 1 ∧
      s.buffer_.content =
        (acceptedOperands kSmallBufferSize (sinceReset ops)).flatMap Operand.text ∧
      (acceptedOperands kSmallBufferSize (sinceReset ops)).Sublist (sinceReset ops) := by
  obtain ⟨s, hrun, hholds⟩ := arrayMachine_run junk h
  have hlt := hholds.wf.size_lt
  refine ⟨s.toArray, hrun.run_eq, ?_, Int.natCast_nonneg _, ?_, ?_, admitted_sublist _ _ _ _⟩
  · exact congrArg Nat.cast hholds.wf.cur_eq
  · simp only [LogStream.toArray]
    omega
  · rw [LogStream.content_toArray hholds.wf]
    exact hholds.content

/-- Calls that fill a stream up to its last free byte. -/
def fillingCalls : List StreamOp :=
  [.shiftLeft (.charPtr (chars ['o', 'l', 'd'])), .resetBuffer,
    .shiftLeft (.string (List.replicate 3964 (ch 'x'))), .shiftLeft (.generalTemplate [] (-1)),
    .shiftLeft (.generalTemplate [ch '?'] 5000), .shiftLeft (.bool true),
    .shiftLeft (.integer .longLong (-2 ^ 63)),
    .shiftLeft (.integer .short 5), .shiftLeft (.string (List.replicate 12 (ch 'y'))),
    .append (chars ['e', 'n', 'd']) 2, .shiftLeft (.string (List.replicate 9 (ch 'z')))]

/-- The integer at 32 free bytes is taken. The next one, and a string as long as the free space,
    are not. -/
theorem arrayMachine_full :
    ∃ s, arrayMachine.run (.new fun _ => 7) fillingCalls = some s ∧ s.buffer_.size_ ≤ 3999 ∧
      s.buffer_.content = List.replicate 3964 (ch 'x') ++
        chars ['t', 'r', 'u', 'e', '-', '9', '2', '2', '3', '3', '7', '2', '0', '3', '6', '8', '5',
          '4', '7', '7', '5', '8', '0', '8', 'e', 'n'] ++ List.replicate 9 (ch 'z') := by
  have hreadable : ∀ op ∈ fillingCalls, op.readable = true := by decide +kernel
  obtain ⟨s, hrun, -, -, hsize, hcontent, -⟩ := arrayMachine_spec (fun _ => 7) hreadable
  refine ⟨s, hrun, hsize, hcontent.trans ?_⟩
  decide +kernel

end RainWebServer.Log
