import Mathlib.Data.Nat.Digits.Lemmas

/-!
# Positional Numerals

The digits of a natural number in a base, as they are written: at least one digit, the most
significant one first, and no zero in front. The digits themselves are those of `Nat.digits`,
which has the least significant one first and none for 0.

## Main results

- `lowDigits_of_lt`, `lowDigits_of_le` : the digits as repeated division yields them
- `valueOf_numeral` : reading a numeral gives the number back
- `head_numeral_ne_zero` : a numeral of a positive number does not start with 0
- `padded_inj` : numerals that are filled up with zeros determine the number
-/

namespace RainWebServer.Lib

variable {b n k : ℕ}

/-! ## §1 Digits -/

/-- The digits of `n`, the least significant one first; 0 has one digit. -/
def lowDigits (b n : ℕ) : List ℕ := if n = 0 then [0] else b.digits n

/-- A number below the base is its only digit. -/
theorem lowDigits_of_lt (h : n < b) : lowDigits b n = [n] := by
  unfold lowDigits
  split
  · rename_i hzero
    rw [hzero]
  · rename_i hpos
    exact Nat.digits_of_lt b n hpos h

/-- Any other number has a last digit, and the digits of the quotient before it. -/
theorem lowDigits_of_le (hb : 1 < b) (h : b ≤ n) :
    lowDigits b n = n % b :: lowDigits b (n / b) := by
  have hn : n ≠ 0 := by omega
  have hquotient : n / b ≠ 0 := (Nat.div_pos h (by omega)).ne'
  rw [lowDigits, if_neg hn, lowDigits, if_neg hquotient]
  exact Nat.digits_eq_cons_digits_div hb hn

theorem lowDigits_ne_nil : lowDigits b n ≠ [] := by
  unfold lowDigits
  split
  · simp
  · rename_i hpos
    exact Nat.digits_ne_nil_iff_ne_zero.mpr hpos

theorem lt_of_mem_lowDigits (hb : 1 < b) {d : ℕ} (hd : d ∈ lowDigits b n) : d < b := by
  unfold lowDigits at hd
  split at hd
  · rw [List.mem_singleton] at hd
    omega
  · exact Nat.digits_lt_base hb hd

theorem ofDigits_lowDigits : Nat.ofDigits b (lowDigits b n) = n := by
  unfold lowDigits
  split
  · rename_i hzero
    rw [hzero]
    simp
  · exact Nat.ofDigits_digits b n

/-- A number below `b ^ k` has at most `k` digits. -/
theorem length_lowDigits_le (hb : 1 < b) (hk : 0 < k) (h : n < b ^ k) :
    (lowDigits b n).length ≤ k := by
  unfold lowDigits
  split
  · exact hk
  · exact (Nat.digits_length_le_iff hb n).mpr h

/-- A number from `b ^ k` on has more than `k` digits. -/
theorem lt_length_lowDigits (hb : 1 < b) (h : b ^ k ≤ n) : k < (lowDigits b n).length := by
  have hpos : n ≠ 0 := by
    have hpow : 0 < b ^ k := Nat.pow_pos (by omega)
    omega
  rw [lowDigits, if_neg hpos]
  exact (Nat.lt_digits_length_iff hb n).mpr h

/-! ## §2 Numerals -/

/-- The digits of `n`, the most significant one first. -/
def numeral (b n : ℕ) : List ℕ := (lowDigits b n).reverse

/-- The value of digits, the most significant one first. -/
def valueOf (b : ℕ) (ds : List ℕ) : ℕ := ds.foldl (fun v d => d + b * v) 0

/-- **Reading a numeral gives the number back.** -/
theorem valueOf_numeral (b n : ℕ) : valueOf b (numeral b n) = n := by
  rw [valueOf, numeral, List.foldl_reverse]
  have hvalue := ofDigits_lowDigits (b := b) (n := n)
  rw [Nat.ofDigits_eq_foldr] at hvalue
  exact hvalue

theorem numeral_ne_nil : numeral b n ≠ [] := by
  rw [numeral, ne_eq, List.reverse_eq_nil_iff]
  exact lowDigits_ne_nil

theorem lt_of_mem_numeral (hb : 1 < b) {d : ℕ} (hd : d ∈ numeral b n) : d < b :=
  lt_of_mem_lowDigits hb (List.mem_reverse.mp hd)

theorem length_numeral_le (hb : 1 < b) (hk : 0 < k) (h : n < b ^ k) :
    (numeral b n).length ≤ k := by
  rw [numeral, List.length_reverse]
  exact length_lowDigits_le hb hk h

theorem lt_length_numeral (hb : 1 < b) (h : b ^ k ≤ n) : k < (numeral b n).length := by
  rw [numeral, List.length_reverse]
  exact lt_length_lowDigits hb h

theorem numeral_zero : numeral b 0 = [0] := rfl

/-- **No superfluous zero.** The numeral of a positive number does not start with 0. -/
theorem head_numeral_ne_zero (hn : n ≠ 0) : (numeral b n).head? ≠ some 0 := by
  -- the first digit is the last one of `Nat.digits`, which is not 0
  rw [numeral, lowDigits, if_neg hn, List.head?_reverse,
    List.getLast?_eq_some_getLast (Nat.digits_ne_nil_iff_ne_zero.mpr hn), ne_eq, Option.some.injEq]
  exact Nat.getLast_digit_ne_zero b hn

/-! ## §3 Numerals of a fixed width -/

/-- The numeral of `n`, filled up with zeros to at least `w` digits. -/
def padded (b w n : ℕ) : List ℕ :=
  List.replicate (w - (numeral b n).length) 0 ++ numeral b n

theorem length_padded (b w n : ℕ) : (padded b w n).length = max w (numeral b n).length := by
  rw [padded, List.length_append, List.length_replicate]
  omega

/-- A number below `b ^ w` fits into `w` digits. -/
theorem length_padded_of_lt {w : ℕ} (hb : 1 < b) (hw : 0 < w) (h : n < b ^ w) :
    (padded b w n).length = w := by
  rw [length_padded]
  exact Nat.max_eq_left (length_numeral_le hb hw h)

theorem lt_of_mem_padded {w : ℕ} (hb : 1 < b) {d : ℕ} (hd : d ∈ padded b w n) : d < b := by
  rcases List.mem_append.mp hd with hzero | hdigit
  · rw [List.eq_of_mem_replicate hzero]
    omega
  · exact lt_of_mem_numeral hb hdigit

/-- Zeros in front do not change the value. -/
theorem valueOf_zeros_append (ds : List ℕ) :
    valueOf b (List.replicate k 0 ++ ds) = valueOf b ds := by
  induction k with
  | zero => rfl
  | succ k ih =>
    rw [List.replicate_succ, List.cons_append]
    exact ih

theorem valueOf_padded (b w n : ℕ) : valueOf b (padded b w n) = n := by
  rw [padded, valueOf_zeros_append, valueOf_numeral]

/-- **Filled-up numerals determine the number.** -/
theorem padded_inj {m w v : ℕ} (h : padded b w n = padded b v m) : n = m := by
  -- both numerals are read back
  rw [← valueOf_padded b w n, h, valueOf_padded]

end RainWebServer.Lib
