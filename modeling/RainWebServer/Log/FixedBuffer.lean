import Mathlib.Algebra.Group.Int.Defs
import Mathlib.Algebra.Group.Nat.Defs
import Mathlib.Data.List.Basic
import Mathlib.Logic.Function.Basic

/-!
# FixedBuffer

Embeds `include/log/FixedBuffer.h`: a char array of fixed size with a pointer `cur_` to its
first free place and a counter `size_`. `cur_` is the offset from `data_`.

The buffer takes data whole or not at all, and always keeps one byte free (`avail() > len`).
-/

namespace RainWebServer.Log

/-! ## §1 The buffer -/

/-- A `char`. -/
abbrev Byte := UInt8

/-- `kSmallBufferSize`. -/
def kSmallBufferSize : Nat := 4000

/-- `kLargeBufferSize`. -/
def kLargeBufferSize : Nat := 4000 * 1000

/-- The members of `FixedBuffer<buffer_size>`. -/
structure FixedBuffer (bufferSize : Nat) where
  data_ : Nat → Byte
  cur_ : Nat
  size_ : Nat

/-- `memcpy` of the bytes `buf` to offset `dst` of a char array. -/
def memcpy (data : Nat → Byte) (dst : Nat) (buf : List Byte) : Nat → Byte :=
  fun i => if i < dst then data i else (buf[i - dst]?).getD (data i)

namespace FixedBuffer

variable {n : Nat}

/-- The constructor; it does not initialise the array, whose bytes are `junk`. -/
def new (junk : Nat → Byte) : FixedBuffer n := ⟨junk, 0, 0⟩

/-- `length()`. -/
def length (b : FixedBuffer n) : Nat := b.size_

/-- `avail()`: the `int` difference converted to `size_t`. -/
def avail (b : FixedBuffer n) : Nat := (((n : Int) - b.size_) % 2 ^ 64).toNat

/-- `add`. -/
def add (b : FixedBuffer n) (len : Nat) : FixedBuffer n :=
  { b with cur_ := b.cur_ + len, size_ := b.size_ + len }

/-- `append`. -/
def append (b : FixedBuffer n) (buf : List Byte) : FixedBuffer n :=
  if b.avail > buf.length then
    { b with data_ := memcpy b.data_ b.cur_ buf }.add buf.length
  else b

/-- `reset`. -/
def reset (b : FixedBuffer n) : FixedBuffer n := { b with cur_ := 0, size_ := 0 }

/-- `bzero`. -/
def bzero (b : FixedBuffer n) : FixedBuffer n :=
  { b with data_ := fun i => if i < n then 0 else b.data_ i }

/-- The bytes `[data(), data() + length())`. -/
def content (b : FixedBuffer n) : List Byte := (List.range b.size_).map b.data_

/-! ## §2 Well-formed buffers -/

/-- `cur_` and `size_` agree, and one byte is free. -/
structure WF (b : FixedBuffer n) : Prop where
  cur_eq : b.cur_ = b.size_
  size_lt : b.size_ < n

theorem length_content (b : FixedBuffer n) : b.content.length = b.size_ := by
  simp [content]

/-- In a well-formed buffer `avail()` is the plain difference. -/
theorem WF.avail_eq {b : FixedBuffer n} (h : b.WF) (hn : n < 2 ^ 63) : b.avail = n - b.size_ := by
  have hlt := h.size_lt
  unfold avail
  rw [Int.emod_eq_of_lt (by omega) (by omega)]
  omega

/-- Copying right behind the first `k` bytes appends to them. -/
theorem map_memcpy_range (data : Nat → Byte) (k : Nat) (buf : List Byte) :
    (List.range (k + buf.length)).map (memcpy data k buf) = (List.range k).map data ++ buf := by
  apply List.ext_getElem
  · simp
  · intro i hi _
    simp only [List.length_map, List.length_range] at hi
    by_cases hk : i < k
    · simp [memcpy, hk, List.getElem_append_left]
    · have hb : i - k < buf.length := by omega
      rw [List.getElem_append_right (by simpa using Nat.le_of_not_lt hk)]
      simp [memcpy, hk, hb]

/-- Copying a byte, and then the others behind it. -/
theorem memcpy_cons (data : Nat → Byte) (dst : Nat) (c : Byte) (buf : List Byte) :
    memcpy (Function.update data dst c) (dst + 1) buf = memcpy data dst (c :: buf) := by
  funext i
  rcases Nat.lt_trichotomy i dst with hlt | rfl | hgt
  · simp [memcpy, hlt, Nat.lt_succ_of_lt hlt, Function.update_of_ne (Nat.ne_of_lt hlt)]
  · simp [memcpy]
  · have hle : ¬i < dst + 1 := by omega
    have hle' : ¬i < dst := by omega
    have hpos : i - dst = i - (dst + 1) + 1 := by omega
    simp [memcpy, hle, hle', hpos, Function.update_of_ne (Nat.ne_of_gt hgt)]

theorem memcpy_nil (data : Nat → Byte) (dst : Nat) : memcpy data dst [] = data := by
  funext i
  simp [memcpy]

/-- What lies behind the copied bytes is left as it is. -/
theorem memcpy_of_le (data : Nat → Byte) {dst i : Nat} {buf : List Byte}
    (h : dst + buf.length ≤ i) : memcpy data dst buf i = data i := by
  have hlt : ¬i < dst := by omega
  rw [memcpy, if_neg hlt, List.getElem?_eq_none (by omega), Option.getD_none]

/-- What lies before them too. -/
theorem memcpy_of_lt (data : Nat → Byte) {dst i : Nat} {buf : List Byte} (h : i < dst) :
    memcpy data dst buf i = data i := by
  rw [memcpy, if_pos h]

theorem memcpy_append (data : Nat → Byte) (dst : Nat) (buf buf' : List Byte) :
    memcpy (memcpy data dst buf) (dst + buf.length) buf' = memcpy data dst (buf ++ buf') := by
  induction buf generalizing data dst with
  | nil => rw [memcpy_nil, List.length_nil, Nat.add_zero, List.nil_append]
  | cons c buf ih =>
    rw [← memcpy_cons, List.cons_append, ← memcpy_cons, ← ih, List.length_cons]
    congr 1
    omega

/-- Data that fits is appended whole. -/
theorem append_of_fits {b : FixedBuffer n} (h : b.WF) {buf : List Byte}
    (hfit : buf.length < b.avail) (hn : n < 2 ^ 63) :
    (b.append buf).WF ∧ (b.append buf).content = b.content ++ buf := by
  rw [append, if_pos hfit]
  rw [h.avail_eq hn] at hfit
  refine ⟨⟨?_, ?_⟩, ?_⟩
  · simp [add, h.cur_eq]
  · show b.size_ + buf.length < n
    omega
  · simp only [content, add, h.cur_eq]
    exact map_memcpy_range b.data_ b.size_ buf

/-- A new buffer is empty. -/
theorem wf_new (hn : 0 < n) (junk : Nat → Byte) :
    (new junk : FixedBuffer n).WF ∧ (new junk : FixedBuffer n).content = [] :=
  ⟨⟨rfl, hn⟩, rfl⟩

/-- A reset buffer is empty. -/
theorem wf_reset {b : FixedBuffer n} (h : b.WF) : b.reset.WF ∧ b.reset.content = [] :=
  ⟨⟨rfl, Nat.lt_of_le_of_lt (Nat.zero_le _) h.size_lt⟩, rfl⟩

end FixedBuffer

end RainWebServer.Log
