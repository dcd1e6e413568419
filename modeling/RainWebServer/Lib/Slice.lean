import Mathlib.Data.List.Basic

/-!
# Slices of a List and Copies into it

A list seen as an array: the part between two positions, and the copy of a block of data to a
position. A copy that does not fit is `none`, so a program that copies out of bounds faults.

## Main results

- `slice_append_slice` : two adjacent slices make one
- `copyInto_spec` : what a copy changes and what it leaves
- `copyForward_eq` : a copy within the array to a position before its source
-/

namespace RainWebServer.Lib

variable {α : Type}

/-! ## §1 Slices -/

/-- The elements of `xs` at the positions from `i` up to, but not including, `j`. -/
def slice (xs : List α) (i j : Nat) : List α := (xs.take j).drop i

theorem length_slice {xs : List α} {i j : Nat} (hj : j ≤ xs.length) :
    (slice xs i j).length = j - i := by
  simp only [slice, List.length_drop, List.length_take]
  omega

@[simp] theorem slice_self (xs : List α) (i : Nat) : slice xs i i = [] := by
  apply List.drop_eq_nil_of_le
  rw [List.length_take]
  exact Nat.min_le_left _ _

/-- Two adjacent slices make one. -/
theorem slice_append_slice (xs : List α) {i j k : Nat} (hij : i ≤ j) (hjk : j ≤ k) :
    slice xs i j ++ slice xs j k = slice xs i k := by
  have hsplit : xs.take k = xs.take j ++ (xs.take k).drop j := by
    conv_lhs => rw [← List.take_append_drop j (xs.take k), List.take_take, Nat.min_eq_left hjk]
  simp only [slice]
  conv_rhs => rw [hsplit]
  by_cases hle : i ≤ (xs.take j).length
  · rw [List.drop_append_of_le_length hle]
  · -- the list ends before `i`, so all three slices are empty
    simp only [List.length_take, Nat.not_le] at hle
    have hend : xs.length ≤ j := by omega
    have hnil : ∀ n, j ≤ n → xs.drop n = [] := fun n hn => List.drop_eq_nil_of_le (by omega)
    rw [List.take_of_length_le hend, List.take_of_length_le (Nat.le_trans hend hjk),
      hnil j (Nat.le_refl j)]
    rw [List.append_nil, List.append_nil]

/-- Dropping from a slice moves its left end. -/
theorem drop_slice (xs : List α) (i j n : Nat) : (slice xs i j).drop n = slice xs (i + n) j := by
  simp only [slice, List.drop_drop]

/-- What lies beyond a slice does not matter to it. -/
theorem slice_append_left {xs : List α} (ys : List α) {i j : Nat} (hj : j ≤ xs.length) :
    slice (xs ++ ys) i j = slice xs i j := by
  simp only [slice, List.take_append_of_le_length hj]

/-! ## §2 Copies -/

/-- Copy `src` to position `pos` of `dst`; `none` if it does not fit. -/
def copyInto (dst : List α) (pos : Nat) (src : List α) : Option (List α) :=
  if pos + src.length ≤ dst.length then
    some (dst.take pos ++ (src ++ dst.drop (pos + src.length)))
  else none

/-- A copy that fits keeps the length and everything before it, and puts `src` in place. -/
theorem copyInto_spec {dst src : List α} {pos : Nat} (hfit : pos + src.length ≤ dst.length) :
    ∃ r, copyInto dst pos src = some r ∧ r.length = dst.length ∧
      (∀ i, slice r i pos = slice dst i pos) ∧ slice r pos (pos + src.length) = src := by
  have hpos : (dst.take pos).length = pos := by
    rw [List.length_take]
    omega
  refine ⟨dst.take pos ++ (src ++ dst.drop (pos + src.length)), if_pos hfit, ?_, ?_, ?_⟩
  · simp only [List.length_append, List.length_take, List.length_drop]
    omega
  · intro i
    rw [slice_append_left _ (Nat.le_of_eq hpos.symm)]
    simp only [slice, List.take_take, Nat.min_self]
  · simp only [slice]
    rw [List.take_append, List.take_of_length_le (by omega), hpos, Nat.add_sub_cancel_left,
      List.take_append_of_le_length (Nat.le_refl _), List.take_length]
    rw [List.drop_append_of_le_length (by omega), List.drop_eq_nil_of_le (by omega),
      List.nil_append]

/-- A copy keeps the length. -/
theorem length_of_copyInto {dst src r : List α} {pos : Nat} (h : copyInto dst pos src = some r) :
    r.length = dst.length := by
  by_cases hfit : pos + src.length ≤ dst.length
  · obtain ⟨r', hcopy, hlength, -⟩ := copyInto_spec hfit
    rw [h, Option.some.injEq] at hcopy
    rw [hcopy, hlength]
  · rw [copyInto, if_neg hfit] at h
    cases h

/-! ## §3 Copies within the array -/

/-- Copy `n` elements from position `src` to position `dst` of the same array, one after another
    from the first to the last; `none` if a position is outside. -/
def copyForward : List α → Nat → Nat → Nat → Option (List α)
  | xs, _, _, 0 => some xs
  | xs, src, dst, n + 1 =>
    match xs[src]? with
    | none => none
    | some a => if dst < xs.length then copyForward (xs.set dst a) (src + 1) (dst + 1) n else none

/-- The first element of a slice. -/
theorem slice_eq_cons {xs : List α} {i j : Nat} {a : α} (ha : xs[i]? = some a) (hij : i < j) :
    slice xs i j = a :: slice xs (i + 1) j := by
  have hget : (xs.take j)[i]? = some a := by
    rw [List.getElem?_take_of_lt hij, ha]
  obtain ⟨hlt, hget⟩ := List.getElem?_eq_some_iff.mp hget
  simp only [slice]
  rw [List.drop_eq_getElem_cons hlt, hget]

/-- Writing before a slice leaves it as it is. -/
theorem slice_set_of_lt (xs : List α) {i j k : Nat} (a : α) (hk : k < i) :
    slice (xs.set k a) i j = slice xs i j := by
  simp only [slice]
  rw [List.take_set, List.drop_set_of_lt hk]

/-- Copying one element, and then the others behind it. -/
theorem copyInto_cons (xs : List α) {pos : Nat} (a : α) (ys : List α) (hpos : pos < xs.length) :
    copyInto (xs.set pos a) (pos + 1) ys = copyInto xs pos (a :: ys) := by
  have htake : (xs.set pos a).take (pos + 1) = xs.take pos ++ [a] := by
    rw [List.take_add_one, List.take_set_of_le (Nat.le_refl pos), List.getElem?_set_self hpos]
    rfl
  have hdrop : (xs.set pos a).drop (pos + 1 + ys.length) = xs.drop (pos + (ys.length + 1)) := by
    rw [List.drop_set_of_lt (by omega)]
    congr 1
    omega
  simp only [copyInto, List.length_set, List.length_cons, htake, hdrop]
  rw [show pos + 1 + ys.length = pos + (ys.length + 1) by omega]
  simp

/-- **A copy to a position before its source** moves the elements unchanged, although the areas
    may overlap: an element is read before it is written. -/
theorem copyForward_eq {n : Nat} (xs : List α) {src dst : Nat} (hle : dst ≤ src)
    (hfit : src + n ≤ xs.length) :
    copyForward xs src dst n = copyInto xs dst (slice xs src (src + n)) := by
  induction n generalizing xs src dst with
  | zero =>
    simp only [copyForward, Nat.add_zero, slice_self, copyInto, List.length_nil,
      List.nil_append, List.take_append_drop]
    rw [if_pos (by omega)]
  | succ n ih =>
    have hsrc : src < xs.length := by omega
    have hget : xs[src]? = some xs[src] := List.getElem?_eq_getElem hsrc
    have hdst : dst < xs.length := by omega
    have hfit' : src + 1 + n ≤ (xs.set dst xs[src]).length := by
      rw [List.length_set]
      omega
    have hrec := ih (xs.set dst xs[src]) (Nat.succ_le_succ hle) hfit'
    simp only [copyForward, hget, hdst, if_true]
    rw [hrec, slice_set_of_lt _ _ (by omega), copyInto_cons _ _ _ hdst,
      slice_eq_cons hget (by omega)]
    congr 3
    omega

theorem length_of_copyForward {n : Nat} {xs r : List α} {src dst : Nat}
    (h : copyForward xs src dst n = some r) : r.length = xs.length := by
  induction n generalizing xs src dst with
  | zero =>
    rw [copyForward, Option.some.injEq] at h
    rw [h]
  | succ n ih =>
    rw [copyForward] at h
    split at h
    · cases h
    · split at h
      · rw [ih h, List.length_set]
      · cases h

end RainWebServer.Lib
