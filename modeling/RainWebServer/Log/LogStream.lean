import RainWebServer.Lib.Machine
import RainWebServer.Lib.Numeral
import RainWebServer.Log.FixedBuffer
import Mathlib.Tactic.IntervalCases

/-!
# LogStream

Embeds `include/log/LogStream.h` and `src/log/LogStream.cc`: `operator<<` for the operand types,
and `formatInteger`, which writes the digits of an integer from the last to the first into the
free part of the buffer and reverses them there.

The text of a `float` or a `double` is what `snprintf` makes of it, an argument of the operand.

## Main results

- `digitLoop_spec` : the digits that truncated division yields, negative remainders included
- `shiftLeft_spec` : an operand is appended whole or not at all
- `formatInteger_decimal` : an integer is appended as its decimal text
-/

namespace RainWebServer.Log

open RainWebServer.Lib

/-! ## §1 Texts and integer types -/

/-- A character as a `char`. -/
def ch (c : Char) : Byte := UInt8.ofNat c.toNat

/-- A string literal. -/
def chars (cs : List Char) : List Byte := cs.map ch

/-- The integer types of the overloads. -/
inductive IntType where
  | short
  | unsignedShort
  | int
  | unsignedInt
  | long
  | unsignedLong
  | longLong
  | unsignedLongLong
  deriving DecidableEq, Repr

def IntType.signed : IntType → Bool
  | .short | .int | .long | .longLong => true
  | .unsignedShort | .unsignedInt | .unsignedLong | .unsignedLongLong => false

def IntType.bits : IntType → Nat
  | .short | .unsignedShort => 16
  | .int | .unsignedInt => 32
  | .long | .unsignedLong | .longLong | .unsignedLongLong => 64

/-- The values of an integer type. -/
def IntType.InRange (T : IntType) (num : Int) : Prop :=
  if T.signed then -2 ^ (T.bits - 1) ≤ num ∧ num < 2 ^ (T.bits - 1)
  else 0 ≤ num ∧ num < 2 ^ T.bits

instance (T : IntType) (num : Int) : Decidable (T.InRange num) := by
  unfold IntType.InRange
  infer_instance

/-! ## §2 The stream -/

/-- The member of `LogStream`. -/
structure LogStream where
  buffer_ : FixedBuffer kSmallBufferSize

/-- `kMaxNumberSize`. -/
def kMaxNumberSize : Nat := 32

/-- `digits`. -/
def digits : List Byte :=
  chars ['9', '8', '7', '6', '5', '4', '3', '2', '1', '0', '1', '2', '3', '4', '5', '6', '7', '8',
    '9']

/-- `zero[remainder]`, where `zero` is `digits + 9`. -/
def zeroAt (remainder : Int) : Option Byte :=
  if 0 ≤ 9 + remainder then digits[(9 + remainder).toNat]? else none

/-- The loop of `formatInteger`, with at most `fuel` iterations: the array and `cur` after it.
    C++ division truncates, so the remainder of a negative number is not positive. -/
def digitLoop : Nat → (Nat → Byte) → Nat → Int → Option ((Nat → Byte) × Nat)
  | 0, _, _, _ => none
  | fuel + 1, data, cur, num =>
    (zeroAt (num.tmod 10)).bind fun c =>
      let data := Function.update data cur c
      let num := num.tdiv 10
      if num ≠ 0 then digitLoop fuel data (cur + 1) num else some (data, cur + 1)

/-- `std::reverse(start, cur)`. -/
def reverseRange (data : Nat → Byte) (start cur : Nat) : Nat → Byte :=
  fun i => if start ≤ i ∧ i < cur then data (start + cur - 1 - i) else data i

/-- A length converted from `int` to `size_t`. -/
def sizeOfInt (len : Int) : Nat := (len % 2 ^ 64).toNat

/-- A `size_t` converted to `int`. -/
def intOfSize (n : Nat) : Int := ((n : Int) + 2 ^ 31) % 2 ^ 32 - 2 ^ 31

namespace LogStream

/-- The constructor. -/
def new (junk : Nat → Byte) : LogStream := ⟨.new junk⟩

/-- `reset_buffer`. -/
def resetBuffer (s : LogStream) : LogStream := ⟨s.buffer_.reset⟩

/-- `formatInteger`. -/
def formatInteger (s : LogStream) (num : Int) : Option LogStream :=
  if s.buffer_.avail ≥ kMaxNumberSize then
    let start := s.buffer_.cur_
    (digitLoop (num.natAbs + 1) s.buffer_.data_ start num).map fun (data, cur) =>
      let (data, cur) :=
        if num < 0 then (Function.update data cur (ch '-'), cur + 1) else (data, cur)
      let data := Function.update data cur 0
      let data := reverseRange data start cur
      let length := cur - start
      ⟨{ s.buffer_ with data_ := data }.add length⟩
  else some s

/-- `buffer_.append` of the first `len` bytes at a pointer to `data`. To read beyond `data` is a
    fault. -/
def appendFrom (s : LogStream) (data : List Byte) (len : Nat) : Option LogStream :=
  if s.buffer_.avail > len then
    if len ≤ data.length then some ⟨s.buffer_.append (data.take len)⟩ else none
  else some s

/-- `append`. -/
def append (s : LogStream) (buffer : List Byte) (len : Int) : Option LogStream :=
  s.appendFrom buffer (sizeOfInt len)

end LogStream

/-- The operands of `operator<<`. -/
inductive Operand where
  | bool (express : Bool)
  | integer (type : IntType) (number : Int)
  /-- A `float` or a `double`, with what `snprintf` makes of it. -/
  | floating (text : List Byte)
  | char (str : Byte)
  /-- A `const char *` or a `const unsigned char *`, with the bytes that it points to. -/
  | charPtr (str : List Byte)
  | string (str : List Byte)
  | generalTemplate (data : List Byte) (len : Int)
  deriving DecidableEq, Repr

/-- The bytes before the terminating NUL. -/
def cString (str : List Byte) : List Byte := str.takeWhile (fun c => c ≠ 0)

/-- `operator<<`. -/
def LogStream.shiftLeft (s : LogStream) : Operand → Option LogStream
  | .bool express => s.appendFrom
      (if express then chars ['t', 'r', 'u', 'e'] else chars ['f', 'a', 'l', 's', 'e'])
      (if express then 4 else 5)
  | .integer _ number => s.formatInteger number
  | .floating text => s.appendFrom text text.length
  | .char str => s.appendFrom [str] 1
  | .charPtr str => s.appendFrom str (cString str).length
  | .string str => s.appendFrom str str.length
  | .generalTemplate data len => s.appendFrom data (sizeOfInt len)

/-- A chain of `operator<<`. -/
def LogStream.shiftAll (s : LogStream) (operands : List Operand) : Option LogStream :=
  operands.foldlM LogStream.shiftLeft s

/-- The calls of a `LogStream`. -/
inductive StreamOp where
  | shiftLeft (operand : Operand)
  | append (buffer : List Byte) (len : Int)
  | resetBuffer
  deriving DecidableEq, Repr

/-- An integer is in the range of its type, `snprintf` fills at most 31 bytes, and a pointer has
    the bytes that its length says. -/
def Operand.valid : Operand → Bool
  | .integer T number => decide (T.InRange number)
  | .floating text => decide (text.length < 32)
  | .generalTemplate data len => decide (IntType.int.InRange len) && decide (len ≤ data.length)
  | _ => true

/-- The calls of a stream. -/
def streamMachine : Machine LogStream StreamOp where
  enabled _
    | .shiftLeft operand => operand.valid
    | .append buffer len => decide (IntType.int.InRange len) && decide (len ≤ buffer.length)
    | .resetBuffer => true
  step s
    | .shiftLeft operand => s.shiftLeft operand
    | .append buffer len => s.append buffer len
    | .resetBuffer => some s.resetBuffer

/-! ## §3 Decimal texts -/

/-- The character of a digit. -/
def digitChar (d : Nat) : Byte := UInt8.ofNat (48 + d)

/-- The canonical decimal text of an integer. -/
def decimal (num : Int) : List Byte :=
  (if num < 0 then [ch '-'] else []) ++ (numeral 10 num.natAbs).map digitChar

/-- The text without its sign. -/
def unsignedPart : List Byte → List Byte
  | [] => []
  | c :: text => if c = ch '-' then text else c :: text

/-- Is the character a decimal digit? -/
def isDigitChar (c : Byte) : Bool := decide (ch '0' ≤ c ∧ c ≤ ch '9')

/-- The value of digits; none if there are no digits, or other characters. -/
def parseDigits (text : List Byte) : Option Nat :=
  if text ≠ [] ∧ text.all isDigitChar = true then
    some (valueOf 10 (text.map (fun c => c.toNat - 48)))
  else none

/-- Read an integer. -/
def parseInt (text : List Byte) : Option Int :=
  (parseDigits (unsignedPart text)).map fun n : Nat =>
    if text.head? = some (ch '-') then -(n : Int) else n

/-- The text is the canonical decimal text of the number. -/
structure Canonical (num : Int) (text : List Byte) : Prop where
  parses : parseInt text = some num
  sign : text.head? = some (ch '-') ↔ num < 0
  leading : (unsignedPart text).head? = some (ch '0') → unsignedPart text = [ch '0']

theorem toNat_digitChar {d : Nat} (hd : d < 10) : (digitChar d).toNat = 48 + d := by
  rw [digitChar, UInt8.toNat_ofNat']
  omega

theorem digitChar_inj {d e : Nat} (hd : d < 10) (he : e < 10) (h : digitChar d = digitChar e) :
    d = e := by
  have heq := congrArg UInt8.toNat h
  rw [toNat_digitChar hd, toNat_digitChar he] at heq
  omega

theorem digitChar_ne_minus {d : Nat} (hd : d < 10) : digitChar d ≠ ch '-' := by
  intro h
  have heq := congrArg UInt8.toNat h
  rw [toNat_digitChar hd] at heq
  change 48 + d = 45 at heq
  omega

/-- Reading the characters of digits gives the digits back. -/
theorem parseDigits_map {ds : List Nat} (hne : ds ≠ []) (hds : ∀ d ∈ ds, d < 10) :
    parseDigits (ds.map digitChar) = some (valueOf 10 ds) := by
  have hdigits : (ds.map digitChar).all isDigitChar = true := by
    refine List.all_eq_true.mpr fun c hc => decide_eq_true ?_
    obtain ⟨d, hd, rfl⟩ := List.mem_map.mp hc
    rw [UInt8.le_iff_toNat_le, UInt8.le_iff_toNat_le, toNat_digitChar (hds d hd)]
    change 48 ≤ 48 + d ∧ 48 + d ≤ 57
    have hlt := hds d hd
    omega
  have hvalues : (ds.map digitChar).map (fun c => c.toNat - 48) = ds := by
    rw [List.map_map]
    conv_rhs => rw [← List.map_id ds]
    apply List.map_congr_left
    intro d hd
    rw [Function.comp_apply, toNat_digitChar (hds d hd)]
    exact Nat.add_sub_cancel_left 48 d
  rw [parseDigits, if_pos ⟨by simpa using hne, hdigits⟩, hvalues]

/-- The first digit of a numeral, and what it is not. -/
theorem unsignedPart_decimal (num : Int) :
    unsignedPart (decimal num) = (numeral 10 num.natAbs).map digitChar ∧
      ((decimal num).head? = some (ch '-') ↔ num < 0) := by
  unfold decimal
  split
  · rename_i hneg
    exact ⟨rfl, iff_of_true rfl hneg⟩
  · rename_i hpos
    rw [List.nil_append]
    cases hdigits : numeral 10 num.natAbs with
    | nil => exact absurd hdigits numeral_ne_nil
    | cons d ds =>
      have hd : d < 10 := by
        apply lt_of_mem_numeral (n := num.natAbs) (by decide)
        rw [hdigits]
        exact List.mem_cons_self
      have hne := digitChar_ne_minus hd
      refine ⟨?_, iff_of_false ?_ hpos⟩
      · rw [List.map_cons, unsignedPart, if_neg hne]
      · simpa using hne

/-- **The decimal text is canonical.** -/
theorem canonical_decimal (num : Int) : Canonical num (decimal num) := by
  obtain ⟨hunsigned, hsign⟩ := unsignedPart_decimal num
  have hdigits : ∀ d ∈ numeral 10 num.natAbs, d < 10 := fun d hd =>
    lt_of_mem_numeral (by decide) hd
  refine ⟨?_, hsign, ?_⟩
  · rw [parseInt, hunsigned, parseDigits_map numeral_ne_nil hdigits, valueOf_numeral,
      Option.map_some, Option.some.injEq]
    split
    · rename_i hminus
      have hneg := hsign.mp hminus
      omega
    · rename_i hminus
      have hpos : ¬num < 0 := fun hneg => hminus (hsign.mpr hneg)
      omega
  · rw [hunsigned]
    intro hzero
    -- only the numeral of 0 starts with 0
    have hnum : num.natAbs = 0 := by
      by_contra hne
      apply head_numeral_ne_zero (b := 10) hne
      cases hlist : numeral 10 num.natAbs with
      | nil => exact absurd hlist numeral_ne_nil
      | cons d ds =>
        rw [hlist, List.map_cons, List.head?_cons, Option.some.injEq] at hzero
        rw [hlist] at hdigits
        have hzero' : digitChar d = digitChar 0 := hzero
        have hd := digitChar_inj (hdigits d List.mem_cons_self) (by decide) hzero'
        rw [hd, List.head?_cons]
    rw [hnum, numeral_zero]
    rfl

/-- The text of an integer of any type has at most 20 characters. -/
theorem length_decimal_le {T : IntType} {num : Int} (h : T.InRange num) :
    (decimal num).length ≤ 20 := by
  have hbounds : -2 ^ 63 ≤ num ∧ num < 2 ^ 64 := by
    unfold IntType.InRange at h
    cases T <;>
      simp only [IntType.signed, IntType.bits, Bool.false_eq_true, if_true, if_false] at h <;> omega
  rw [decimal, List.length_append, List.length_map]
  -- a negative number has a sign and at most 19 digits
  split
  · have hdigits : (numeral 10 num.natAbs).length ≤ 19 :=
      length_numeral_le (by decide) (by decide) (by omega)
    simp only [List.length_singleton]
    omega
  · have hdigits : (numeral 10 num.natAbs).length ≤ 20 :=
      length_numeral_le (by decide) (by decide) (by omega)
    simpa using hdigits

/-! ## §4 The digits of an integer -/

/-- The table has the digit of every remainder, on both sides of `zero`. -/
theorem zeroAt_eq {remainder : Int} (h : remainder.natAbs < 10) :
    zeroAt remainder = some (digitChar remainder.natAbs) := by
  have hlow : -10 < remainder := by omega
  have hhigh : remainder < 10 := by omega
  interval_cases remainder <;> rfl

/-- **The digit loop** ends, and writes the digits of the absolute value, the last one first. -/
theorem digitLoop_spec {fuel : Nat} (data : Nat → Byte) (cur : Nat) {num : Int}
    (hfuel : num.natAbs < fuel) :
    digitLoop fuel data cur num =
      some (memcpy data cur ((lowDigits 10 num.natAbs).map digitChar),
        cur + (lowDigits 10 num.natAbs).length) := by
  induction fuel generalizing data cur num with
  | zero => exact absurd hfuel (Nat.not_lt_zero _)
  | succ fuel ih =>
    -- `/` and `%` of C give the digits of the absolute value, up to their sign
    have hremainder : (num.tmod 10).natAbs = num.natAbs % 10 := Int.natAbs_tmod num 10
    have hquotient : (num.tdiv 10).natAbs = num.natAbs / 10 := Int.natAbs_tdiv num 10
    have hzero : zeroAt (num.tmod 10) = some (digitChar (num.natAbs % 10)) := by
      rw [← hremainder]
      apply zeroAt_eq
      omega
    rw [digitLoop, hzero, Option.bind_some]
    -- the loop ends at the digit whose quotient is 0
    rcases Nat.lt_or_ge num.natAbs 10 with hlt | hge
    · have hdone : ¬num.tdiv 10 ≠ 0 := by omega
      rw [if_neg hdone, lowDigits_of_lt hlt, Nat.mod_eq_of_lt hlt, List.map_singleton,
        List.length_singleton, ← FixedBuffer.memcpy_cons, FixedBuffer.memcpy_nil]
    · have hmore : num.tdiv 10 ≠ 0 := by omega
      rw [if_pos hmore, ih _ _ (by omega), hquotient, FixedBuffer.memcpy_cons,
        lowDigits_of_le (b := 10) (by decide) hge, List.map_cons, List.length_cons]
      congr 2
      omega

/-- Reversing the bytes that were written, with a NUL behind them. -/
theorem reverseRange_memcpy (data : Nat → Byte) (start : Nat) (buf : List Byte) :
    reverseRange (Function.update (memcpy data start buf) (start + buf.length) 0) start
        (start + buf.length) =
      Function.update (memcpy data start buf.reverse) (start + buf.length) 0 := by
  funext i
  unfold reverseRange
  split
  · rename_i hin
    -- a byte of the range comes from its mirror position
    have hmirror : start + (start + buf.length) - 1 - i < start + buf.length := by omega
    have hnot : ¬start + (start + buf.length) - 1 - i < start := by omega
    have hnot' : ¬i < start := by omega
    have hindex : start + (start + buf.length) - 1 - i - start = buf.length - 1 - (i - start) := by
      omega
    have hget : i - start < buf.reverse.length := by
      rw [List.length_reverse]
      omega
    rw [Function.update_of_ne (Nat.ne_of_lt hmirror), Function.update_of_ne (Nat.ne_of_lt hin.2),
      memcpy, memcpy, if_neg hnot, if_neg hnot', hindex,
      List.getElem?_reverse (by simpa using hget), List.getElem?_eq_getElem (by omega),
      Option.getD_some, Option.getD_some]
  · rename_i hout
    -- outside of the range no byte moves, the NUL included
    rcases Nat.lt_or_ge i start with hlt | hge
    · rw [Function.update_of_ne (by omega), Function.update_of_ne (by omega),
        FixedBuffer.memcpy_of_lt _ hlt, FixedBuffer.memcpy_of_lt _ hlt]
    · have hle : start + buf.length ≤ i := by omega
      rcases Nat.eq_or_lt_of_le hle with rfl | hlt
      · rw [Function.update_self, Function.update_self]
      · rw [Function.update_of_ne (Nat.ne_of_gt hlt), Function.update_of_ne (Nat.ne_of_gt hlt),
          FixedBuffer.memcpy_of_le _ hle, FixedBuffer.memcpy_of_le _ (by simpa using hle)]

/-! ## §5 What the calls do -/

/-- What a call adds to a stream: the text behind the content, inside the array. -/
structure Adds (s s' : LogStream) (text : List Byte) : Prop where
  wf : s'.buffer_.WF
  content : s'.buffer_.content = s.buffer_.content ++ text
  outside : ∀ i, kSmallBufferSize ≤ i → s'.buffer_.data_ i = s.buffer_.data_ i

/-- Nothing is added. -/
theorem Adds.nothing {s : LogStream} (h : s.buffer_.WF) : Adds s s [] :=
  ⟨h, by simp, fun _ _ => rfl⟩

namespace LogStream

variable {s : LogStream}

/-- The space that is left behind the content. -/
theorem avail_eq (h : s.buffer_.WF) :
    s.buffer_.avail = kSmallBufferSize - s.buffer_.content.length := by
  rw [h.avail_eq (by decide), FixedBuffer.length_content]

/-- **`append` takes its bytes whole or not at all.** -/
theorem appendFrom_spec (h : s.buffer_.WF) {data : List Byte} {len : Nat}
    (hlen : len < s.buffer_.avail → len ≤ data.length) :
    ∃ s', s.appendFrom data len = some s' ∧
      Adds s s' (if len < s.buffer_.avail then data.take len else []) := by
  unfold appendFrom
  split
  · rename_i hfits
    have hlen := hlen hfits
    rw [if_pos hlen]
    have htake : (data.take len).length = len := by
      rw [List.length_take]
      exact Nat.min_eq_left hlen
    have hfits' : (data.take len).length < s.buffer_.avail := htake.symm ▸ hfits
    obtain ⟨hwf, hcontent⟩ := FixedBuffer.append_of_fits h hfits' (by decide)
    refine ⟨_, rfl, hwf, hcontent, ?_⟩
    intro i hi
    -- the data ends before the array does
    rw [h.avail_eq (by decide)] at hfits
    have hend : s.buffer_.cur_ + (data.take len).length ≤ i := by
      rw [htake, h.cur_eq]
      omega
    rw [FixedBuffer.append, if_pos hfits']
    exact FixedBuffer.memcpy_of_le _ hend
  · exact ⟨s, rfl, .nothing h⟩

/-- The decimal text backwards: the digits from the last one on, and the sign. -/
def backwards (num : Int) : List Byte :=
  (lowDigits 10 num.natAbs).map digitChar ++ if num < 0 then [ch '-'] else []

theorem reverse_backwards (num : Int) : (backwards num).reverse = decimal num := by
  simp only [backwards, decimal, numeral, List.reverse_append, List.map_reverse]
  split <;> rfl

/-- The loop and the sign write the text backwards. -/
theorem sign_memcpy (data : Nat → Byte) (start : Nat) (num : Int) :
    (if num < 0 then
      (Function.update (memcpy data start ((lowDigits 10 num.natAbs).map digitChar))
        (start + (lowDigits 10 num.natAbs).length) (ch '-'),
        start + (lowDigits 10 num.natAbs).length + 1)
    else (memcpy data start ((lowDigits 10 num.natAbs).map digitChar),
      start + (lowDigits 10 num.natAbs).length)) =
      (memcpy data start (backwards num), start + (backwards num).length) := by
  have hlength : ((lowDigits 10 num.natAbs).map digitChar).length =
      (lowDigits 10 num.natAbs).length := List.length_map _
  unfold backwards
  rw [← hlength]
  split
  · -- the sign is one more byte behind the digits
    rw [← FixedBuffer.memcpy_append, ← FixedBuffer.memcpy_cons, FixedBuffer.memcpy_nil,
      List.length_append]
    rfl
  · rw [List.append_nil]

/-- On a stream with space `formatInteger` leaves the decimal text with a NUL behind it. -/
theorem formatInteger_eq (havail : s.buffer_.avail ≥ kMaxNumberSize) (num : Int) :
    s.formatInteger num = some ⟨{ s.buffer_ with
      data_ := Function.update (memcpy s.buffer_.data_ s.buffer_.cur_ (decimal num))
        (s.buffer_.cur_ + (decimal num).length) 0 }.add (decimal num).length⟩ := by
  have hloop := digitLoop_spec s.buffer_.data_ s.buffer_.cur_ (Nat.lt_succ_self num.natAbs)
  have hsize : (backwards num).length = (decimal num).length := by
    rw [← reverse_backwards, List.length_reverse]
  -- the NUL is behind the range that is reversed
  rw [formatInteger, if_pos havail]
  simp only [hloop, Option.map_some, sign_memcpy, reverseRange_memcpy, reverse_backwards,
    Nat.add_sub_cancel_left]
  rw [hsize]

/-- **`formatInteger`** on a stream with space: the decimal text is appended, and only the bytes
    of the text and the NUL behind it are written. -/
theorem formatInteger_spec (h : s.buffer_.WF) (havail : s.buffer_.avail ≥ kMaxNumberSize)
    {num : Int} (hlength : (decimal num).length ≤ 20) :
    ∃ s', s.formatInteger num = some s' ∧ Adds s s' (decimal num) ∧
      ∀ i, i < s.buffer_.cur_ ∨ s.buffer_.cur_ + kMaxNumberSize ≤ i →
        s'.buffer_.data_ i = s.buffer_.data_ i := by
  rw [formatInteger_eq havail]
  rw [h.avail_eq (by decide)] at havail
  have hroom : s.buffer_.size_ + 32 ≤ kSmallBufferSize := by
    unfold kMaxNumberSize kSmallBufferSize at *
    omega
  -- the text lies before the NUL, and the reserved bytes end behind it
  have hbefore : ∀ i, i < s.buffer_.cur_ + (decimal num).length →
      Function.update (memcpy s.buffer_.data_ s.buffer_.cur_ (decimal num))
        (s.buffer_.cur_ + (decimal num).length) 0 i =
          memcpy s.buffer_.data_ s.buffer_.cur_ (decimal num) i := by
    intro i hi
    exact Function.update_of_ne (Nat.ne_of_lt hi) _ _
  have hafter : ∀ i, s.buffer_.cur_ + 32 ≤ i →
      Function.update (memcpy s.buffer_.data_ s.buffer_.cur_ (decimal num))
        (s.buffer_.cur_ + (decimal num).length) 0 i = s.buffer_.data_ i := by
    intro i hi
    rw [Function.update_of_ne (by omega), FixedBuffer.memcpy_of_le _ (by omega)]
  have hstart : s.buffer_.cur_ = s.buffer_.size_ := h.cur_eq
  refine ⟨_, rfl, ⟨⟨?_, ?_⟩, ?_, ?_⟩, ?_⟩
  · simp [FixedBuffer.add, h.cur_eq]
  · show s.buffer_.size_ + (decimal num).length < kSmallBufferSize
    omega
  · -- the content ends before the NUL
    simp only [FixedBuffer.content, FixedBuffer.add]
    rw [← FixedBuffer.map_memcpy_range]
    apply List.map_congr_left
    intro i hi
    rw [List.mem_range] at hi
    rw [hbefore i (by omega), hstart]
  · intro i hi
    exact hafter i (by omega)
  · rintro i (hlt | hge)
    · have hlt' : i < s.buffer_.cur_ + (decimal num).length :=
        Nat.lt_of_lt_of_le hlt (Nat.le_add_right _ _)
      exact (hbefore i hlt').trans (FixedBuffer.memcpy_of_lt _ hlt)
    · exact hafter i hge

/-- A length that is not negative and not too long, or one that no stream has space for. -/
theorem sizeOfInt_fits (h : s.buffer_.WF) {len : Int} (hrange : IntType.int.InRange len)
    {data : List Byte} (hlen : len ≤ data.length) (hfits : sizeOfInt len < s.buffer_.avail) :
    sizeOfInt len ≤ data.length := by
  rw [h.avail_eq (by decide)] at hfits
  unfold sizeOfInt kSmallBufferSize at *
  simp only [IntType.InRange, IntType.signed, IntType.bits, if_true] at hrange
  omega

end LogStream

/-- The text of an operand. -/
def Operand.text : Operand → List Byte
  | .bool express => if express then chars ['t', 'r', 'u', 'e'] else chars ['f', 'a', 'l', 's', 'e']
  | .integer _ number => decimal number
  | .floating text => text
  | .char str => [str]
  | .charPtr str => cString str
  | .string str => str
  | .generalTemplate data len => data.take (sizeOfInt len)

/-- A stream with so much space takes the operand. -/
def Operand.fits (avail : Nat) : Operand → Bool
  | .integer _ _ => kMaxNumberSize ≤ avail
  | .generalTemplate _ len => sizeOfInt len < avail
  | operand => operand.text.length < avail

theorem take_cString (str : List Byte) : str.take (cString str).length = cString str :=
  List.prefix_iff_eq_take.mp (List.takeWhile_prefix _) |>.symm

/-- An operand whose bytes are appended. -/
theorem LogStream.append_text {s : LogStream} (h : s.buffer_.WF) {data text : List Byte} {len : Nat}
    (htext : data.take len = text) (hlen : len = text.length) :
    ∃ s', s.appendFrom data len = some s' ∧
      Adds s s' (if text.length < s.buffer_.avail then text else []) := by
  have hle : len ≤ data.length := by
    rw [hlen, ← htext]
    exact List.length_take_le' _ _
  subst hlen
  have hspec := appendFrom_spec h (fun _ => hle)
  rwa [htext] at hspec

/-- **`operator<<` takes an operand whole or not at all.** -/
theorem LogStream.shiftLeft_spec {s : LogStream} (h : s.buffer_.WF) {operand : Operand}
    (hvalid : operand.valid = true) :
    ∃ s', s.shiftLeft operand = some s' ∧
      Adds s s' (if operand.fits s.buffer_.avail then operand.text else []) := by
  cases operand with
  | bool express =>
    simp only [Operand.fits, decide_eq_true_eq]
    cases express with
    | true => exact append_text h rfl rfl
    | false => exact append_text h rfl rfl
  | integer T number =>
    have hrange : T.InRange number := of_decide_eq_true hvalid
    simp only [LogStream.shiftLeft, Operand.fits, Operand.text, decide_eq_true_eq]
    by_cases havail : kMaxNumberSize ≤ s.buffer_.avail
    · rw [if_pos havail]
      obtain ⟨s', hcall, hadds, -⟩ := formatInteger_spec h havail (length_decimal_le hrange)
      exact ⟨s', hcall, hadds⟩
    · rw [if_neg havail, LogStream.formatInteger, if_neg havail]
      exact ⟨s, rfl, .nothing h⟩
  | floating text =>
    simp only [Operand.fits, decide_eq_true_eq]
    exact append_text h List.take_length rfl
  | char str =>
    simp only [Operand.fits, decide_eq_true_eq]
    exact append_text h rfl rfl
  | charPtr str =>
    simp only [Operand.fits, decide_eq_true_eq]
    exact append_text h (take_cString str) rfl
  | string str =>
    simp only [Operand.fits, decide_eq_true_eq]
    exact append_text h List.take_length rfl
  | generalTemplate data len =>
    simp only [Operand.valid, Bool.and_eq_true, decide_eq_true_eq] at hvalid
    simp only [Operand.fits, decide_eq_true_eq]
    exact appendFrom_spec h (sizeOfInt_fits h hvalid.1 hvalid.2)

/-- One call after another. -/
theorem Adds.trans {s s' s'' : LogStream} {text text' : List Byte} (h : Adds s s' text)
    (h' : Adds s' s'' text') : Adds s s'' (text ++ text') := by
  refine ⟨h'.wf, ?_, fun i hi => (h'.outside i hi).trans (h.outside i hi)⟩
  rw [h'.content, h.content, List.append_assoc]

/-- What a stream with so much space takes of a chain of operands. -/
def accepted : Nat → List Operand → List Byte
  | _, [] => []
  | avail, operand :: operands =>
    let text := if operand.fits avail then operand.text else []
    text ++ accepted (avail - text.length) operands

theorem accepted_cons_of_fits {avail : Nat} {operand : Operand} (operands : List Operand)
    (h : operand.fits avail = true) :
    accepted avail (operand :: operands) =
      operand.text ++ accepted (avail - operand.text.length) operands := by
  rw [accepted, if_pos h]

theorem accepted_cons_of_not_fits {avail : Nat} {operand : Operand} (operands : List Operand)
    (h : operand.fits avail ≠ true) :
    accepted avail (operand :: operands) = accepted avail operands := by
  rw [accepted, if_neg h]
  rfl

/-- What is taken comes from the texts. -/
theorem exists_of_mem_accepted {avail : Nat} {operands : List Operand} {c : Byte}
    (h : c ∈ accepted avail operands) : ∃ operand ∈ operands, c ∈ operand.text := by
  induction operands generalizing avail with
  | nil => cases h
  | cons operand operands ih =>
    by_cases hfits : operand.fits avail = true
    · rw [accepted_cons_of_fits operands hfits, List.mem_append] at h
      rcases h with hfirst | hrest
      · exact ⟨operand, List.mem_cons_self, hfirst⟩
      · obtain ⟨operand', hmem, htext⟩ := ih hrest
        exact ⟨operand', List.mem_cons_of_mem _ hmem, htext⟩
    · rw [accepted_cons_of_not_fits operands hfits] at h
      obtain ⟨operand', hmem, htext⟩ := ih h
      exact ⟨operand', List.mem_cons_of_mem _ hmem, htext⟩

/-- **A chain of `operator<<`** takes each operand whole or not at all. -/
theorem LogStream.shiftAll_spec {s : LogStream} (h : s.buffer_.WF) {operands : List Operand}
    (hvalid : ∀ operand ∈ operands, operand.valid = true) :
    ∃ s', s.shiftAll operands = some s' ∧ Adds s s' (accepted s.buffer_.avail operands) := by
  induction operands generalizing s with
  | nil => exact ⟨s, rfl, .nothing h⟩
  | cons operand operands ih =>
    obtain ⟨s₁, hfirst, hadds⟩ := shiftLeft_spec h (hvalid operand List.mem_cons_self)
    obtain ⟨s₂, hrest, hadds'⟩ := ih hadds.wf (fun o ho => hvalid o (List.mem_cons_of_mem _ ho))
    refine ⟨s₂, ?_, ?_⟩
    · rw [shiftAll, List.foldlM_cons, hfirst]
      exact hrest
    · -- the space falls by what was taken
      have havail : s₁.buffer_.avail = s.buffer_.avail -
          (if operand.fits s.buffer_.avail then operand.text else []).length := by
        rw [avail_eq hadds.wf, hadds.content, List.length_append, Nat.sub_add_eq, ← avail_eq h]
      rw [havail] at hadds'
      exact hadds.trans hadds'

/-! ## §6 Runs -/

/-- A call keeps the stream well-formed. -/
theorem streamMachine_step {s : LogStream} {op : StreamOp} (h : s.buffer_.WF)
    (he : streamMachine.enabled s op = true) :
    ∃ s', streamMachine.step s op = some s' ∧ s'.buffer_.WF := by
  cases op with
  | shiftLeft operand =>
    obtain ⟨s', hcall, hadds⟩ := LogStream.shiftLeft_spec h he
    exact ⟨s', hcall, hadds.wf⟩
  | append buffer len =>
    simp only [streamMachine, Bool.and_eq_true, decide_eq_true_eq] at he
    obtain ⟨s', hcall, hadds⟩ :=
      LogStream.appendFrom_spec h (LogStream.sizeOfInt_fits h he.1 he.2)
    exact ⟨s', hcall, hadds.wf⟩
  | resetBuffer => exact ⟨s.resetBuffer, rfl, (FixedBuffer.wf_reset h).1⟩

/-- After every run the stream is well-formed. -/
theorem streamMachine_wf {junk : Nat → Byte} {ops : List StreamOp} {s : LogStream}
    (h : streamMachine.Reaches (.new junk) ops s) : s.buffer_.WF := by
  refine Machine.invariant_reaches (I := fun s : LogStream => s.buffer_.WF) ?_ h
  exact ⟨(FixedBuffer.wf_new (by decide) junk).1, fun t op ht he => streamMachine_step ht he⟩

/-- **`formatInteger` appends the decimal text.** On every stream with at least `kMaxNumberSize`
    bytes available, for every value of every integer type: the content grows by the canonical
    decimal text of at most 20 characters, and nothing but the reserved bytes is written. -/
theorem formatInteger_decimal {junk : Nat → Byte} {ops : List StreamOp} {s : LogStream}
    (h : streamMachine.Reaches (.new junk) ops s) (havail : s.buffer_.avail ≥ kMaxNumberSize)
    {T : IntType} {num : Int} (hnum : T.InRange num) :
    ∃ s' text, s.formatInteger num = some s' ∧
      s'.buffer_.content = s.buffer_.content ++ text ∧ Canonical num text ∧ text.length ≤ 20 ∧
      s.buffer_.cur_ + kMaxNumberSize ≤ kSmallBufferSize ∧
      ∀ i, i < s.buffer_.cur_ ∨ s.buffer_.cur_ + kMaxNumberSize ≤ i →
        s'.buffer_.data_ i = s.buffer_.data_ i := by
  have hwf := streamMachine_wf h
  have hlength := length_decimal_le hnum
  obtain ⟨s', hcall, hadds, hframe⟩ := LogStream.formatInteger_spec hwf havail hlength
  refine ⟨s', decimal num, hcall, hadds.content, canonical_decimal num, hlength, ?_, hframe⟩
  rw [hwf.avail_eq (by decide)] at havail
  rw [hwf.cur_eq]
  unfold kMaxNumberSize kSmallBufferSize at *
  omega

/-- The least `long long`, behind a character. -/
theorem formatInteger_min :
    ∃ s s' text, streamMachine.Reaches (.new fun _ => 7) [.shiftLeft (.char (ch 'x'))] s ∧
      s.formatInteger (-2 ^ 63) = some s' ∧ Canonical (-2 ^ 63) text ∧
      s'.buffer_.content = ch 'x' :: text := by
  have hrun : (streamMachine.run (.new fun _ => 7) [.shiftLeft (.char (ch 'x'))]).map
      (fun s => (s.buffer_.content, s.buffer_.avail)) = some ([ch 'x'], 3999) := by
    decide +kernel
  obtain ⟨s, hs, hstate⟩ := Option.map_eq_some_iff.mp hrun
  rw [Prod.mk.injEq] at hstate
  have hreach := Machine.reaches_of_run hs
  have havail : s.buffer_.avail ≥ kMaxNumberSize := by
    rw [hstate.2]
    decide
  obtain ⟨s', text, hcall, hcontent, hcanonical, -⟩ :=
    formatInteger_decimal hreach havail (show IntType.longLong.InRange (-2 ^ 63) by decide)
  rw [hstate.1] at hcontent
  exact ⟨s, s', text, hreach, hcall, hcanonical, hcontent⟩

end RainWebServer.Log
