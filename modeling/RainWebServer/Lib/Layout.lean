import Mathlib.Data.List.Basic

/-!
# Blocks Carved from Regions

A small library for allocators: `regions` are the address ranges obtained from the system, each
given by its start and its length, and `size a = some n` says that a block of `n` bytes starts
at `a`.

## Main results

- `Layout.carve` : cutting a fresh region into equal blocks keeps a layout
- `Tiling.fresh`, `Tiling.split`, `Tiling.merge` : pieces that cover the regions exactly
-/

namespace RainWebServer.Lib

/-- The ranges `[a, a + m)` and `[b, b + n)` do not overlap. -/
def Apart (a m b n : Nat) : Prop := a + m ≤ b ∨ b + n ≤ a

instance (a m b n : Nat) : Decidable (Apart a m b n) :=
  inferInstanceAs (Decidable (_ ∨ _))

/-- Nonempty blocks that lie in the regions and do not overlap. -/
structure Layout (regions : List (Nat × Nat)) (size : Nat → Option Nat) : Prop where
  pos : ∀ a n, size a = some n → 0 < n
  inside : ∀ a n, size a = some n → ∃ r ∈ regions, r.1 ≤ a ∧ a + n ≤ r.1 + r.2
  apart : ∀ a b m n, size a = some m → size b = some n → a ≠ b → Apart a m b n

variable {regions : List (Nat × Nat)} {size : Nat → Option Nat}

theorem Layout.nil : Layout [] (fun _ => none) := by
  constructor <;> intros <;> contradiction

/-- A position inside a block is not the start of another one. -/
theorem Layout.not_start (h : Layout regions size) {a b m n w : Nat} (ha : size a = some m)
    (hb : size b = some n) (hne : a ≠ b) (hw : a ≤ w ∧ w < a + m) : w ≠ b := by
  have hapart := h.apart a b m n ha hb hne
  have hpos := h.pos b n hb
  unfold Apart at hapart
  omega

/-- The blocks `base + k * n` for `k < count` are apart from each other. -/
theorem apart_of_multiples {base n k j : Nat} (hne : k ≠ j) :
    Apart (base + k * n) n (base + j * n) n := by
  rcases Nat.lt_or_gt_of_ne hne with hlt | hlt
  · left
    have hle : (k + 1) * n ≤ j * n := Nat.mul_le_mul_right n hlt
    rw [Nat.succ_mul] at hle
    omega
  · right
    have hle : (j + 1) * n ≤ k * n := Nat.mul_le_mul_right n hlt
    rw [Nat.succ_mul] at hle
    omega

/-- **Carving a fresh region.** The blocks of `n` bytes that are cut from a region apart from
    all others are added to the layout. -/
theorem Layout.carve (h : Layout regions size) {base length n count : Nat} (hn : 0 < n)
    (hfit : count * n ≤ length)
    (hfresh : ∀ r ∈ regions, Apart base length r.1 r.2) {size' : Nat → Option Nat}
    (hsize' : ∀ a m, size' a = some m →
      size a = some m ∨ m = n ∧ ∃ k < count, a = base + k * n) :
    Layout ((base, length) :: regions) size' := by
  have hend : ∀ k < count, base + k * n + n ≤ base + length := by
    intro k hk
    have hle : (k + 1) * n ≤ count * n := Nat.mul_le_mul_right n hk
    rw [Nat.succ_mul] at hle
    omega
  -- an old block lies in an old region, so it is apart from the new ones
  have hold : ∀ a m, size a = some m → ∀ k < count, Apart a m (base + k * n) n := by
    intro a m ha k hk
    obtain ⟨r, hr, hlo, hhi⟩ := h.inside a m ha
    have hapart := hfresh r hr
    have hk' := hend k hk
    unfold Apart at hapart ⊢
    omega
  refine ⟨?_, ?_, ?_⟩
  · intro a m ha
    rcases hsize' a m ha with hsize | ⟨rfl, -⟩
    · exact h.pos a m hsize
    · exact hn
  · intro a m ha
    rcases hsize' a m ha with hsize | ⟨rfl, k, hk, rfl⟩
    · obtain ⟨r, hr, hin⟩ := h.inside a m hsize
      exact ⟨r, List.mem_cons_of_mem _ hr, hin⟩
    · exact ⟨_, List.mem_cons_self, Nat.le_add_right _ _, hend k hk⟩
  · intro a b m m' ha hb hne
    rcases hsize' a m ha with hsa | ⟨rfl, k, hk, rfl⟩
    · rcases hsize' b m' hb with hsb | ⟨rfl, j, hj, rfl⟩
      · exact h.apart a b m m' hsa hsb hne
      · exact hold a m hsa j hj
    · rcases hsize' b m' hb with hsb | ⟨rfl, j, hj, rfl⟩
      · exact (hold b m' hsb k hk).symm
      · apply apart_of_multiples
        rintro rfl
        exact hne rfl

/-! ## Tilings -/

/-- Nonempty pieces, each a start and a length, that do not overlap and cover exactly the
    regions. -/
structure Tiling {ι : Type} (regions : List (Nat × Nat)) (piece : ι → Option (Nat × Nat)) :
    Prop where
  pos : ∀ i a n, piece i = some (a, n) → 0 < n
  apart : ∀ i j a m b n, i ≠ j → piece i = some (a, m) → piece j = some (b, n) → Apart a m b n
  cover : ∀ x, (∃ i a n, piece i = some (a, n) ∧ a ≤ x ∧ x < a + n) ↔
    ∃ r ∈ regions, r.1 ≤ x ∧ x < r.1 + r.2

section Tilings

variable {ι : Type} {piece piece' : ι → Option (Nat × Nat)}

/-- Pieces that start at the same place are the same. -/
theorem Tiling.eq_of_start (h : Tiling regions piece) {i j : ι} {a m n : Nat}
    (hi : piece i = some (a, m)) (hj : piece j = some (a, n)) : i = j := by
  by_contra hne
  have hapart := h.apart i j a m a n hne hi hj
  have hm := h.pos i a m hi
  have hn := h.pos j a n hj
  unfold Apart at hapart
  omega

/-- A piece ends below a limit that all regions end below. -/
theorem Tiling.end_lt (h : Tiling regions piece) {limit : Nat}
    (hregions : ∀ r ∈ regions, r.1 + r.2 < limit) {i : ι} {a n : Nat}
    (hi : piece i = some (a, n)) : a + n < limit := by
  have hpos := h.pos i a n hi
  -- the last position of the piece is in a region
  obtain ⟨r, hr, -, hlast⟩ := (h.cover (a + n - 1)).mp ⟨i, a, n, hi, by omega, by omega⟩
  have hend := hregions r hr
  omega

/-- A new region is a piece of its own. -/
theorem Tiling.fresh (h : Tiling regions piece) {i : ι} {base length : Nat} (hpos : 0 < length)
    (hfresh : ∀ r ∈ regions, Apart base length r.1 r.2) (hi : piece i = none)
    (hi' : piece' i = some (base, length)) (hother : ∀ j, j ≠ i → piece' j = piece j) :
    Tiling ((base, length) :: regions) piece' := by
  -- a piece lies in the old regions, so it is apart from the new one
  have hold : ∀ j a n, piece j = some (a, n) → Apart base length a n := by
    intro j a n hj
    by_contra hover
    have hn := h.pos j a n hj
    unfold Apart at hover
    obtain ⟨r, hr, hlo, hhi⟩ := (h.cover (max base a)).mp ⟨j, a, n, hj, by omega, by omega⟩
    have hapart := hfresh r hr
    unfold Apart at hapart
    omega
  have hcases : ∀ j a n, piece' j = some (a, n) →
      (j = i ∧ a = base ∧ n = length) ∨ (j ≠ i ∧ piece j = some (a, n)) := by
    intro j a n hj
    rcases Classical.em (j = i) with rfl | hne
    · rw [hi', Option.some.injEq, Prod.mk.injEq] at hj
      exact .inl ⟨rfl, hj.1.symm, hj.2.symm⟩
    · exact .inr ⟨hne, hother j hne ▸ hj⟩
  refine ⟨?_, ?_, ?_⟩
  · intro j a n hj
    rcases hcases j a n hj with ⟨-, -, rfl⟩ | ⟨-, hj⟩
    · exact hpos
    · exact h.pos j a n hj
  · intro j k a m b n hne hj hk
    rcases hcases j a m hj with ⟨rfl, rfl, rfl⟩ | ⟨-, hj⟩
    · rcases hcases k b n hk with ⟨rfl, -, -⟩ | ⟨-, hk⟩
      · exact absurd rfl hne
      · exact hold k b n hk
    · rcases hcases k b n hk with ⟨rfl, rfl, rfl⟩ | ⟨-, hk⟩
      · exact (hold j a m hj).symm
      · exact h.apart j k a m b n hne hj hk
  · intro x
    constructor
    · rintro ⟨j, a, n, hj, hx⟩
      rcases hcases j a n hj with ⟨-, rfl, rfl⟩ | ⟨-, hj⟩
      · exact ⟨_, List.mem_cons_self, hx⟩
      · obtain ⟨r, hr, hin⟩ := (h.cover x).mp ⟨j, a, n, hj, hx⟩
        exact ⟨r, List.mem_cons_of_mem _ hr, hin⟩
    · rintro ⟨r, hr, hin⟩
      rcases List.mem_cons.mp hr with rfl | hr
      · exact ⟨i, base, length, hi', hin⟩
      · obtain ⟨j, a, n, hj, hx⟩ := (h.cover x).mpr ⟨r, hr, hin⟩
        have hne : j ≠ i := by
          rintro rfl
          rw [hi] at hj
          cases hj
        exact ⟨j, a, n, (hother j hne).trans hj, hx⟩

/-- Pieces that are rearranged within the area of some of them: every new piece is an old one
    outside of that area or lies in it, and the area stays covered. -/
theorem Tiling.rearrange (h : Tiling regions piece) (moved : ι → Prop) (base length : Nat)
    (hsame : ∀ i, ¬moved i → piece' i = piece i)
    (harea : ∀ x, (base ≤ x ∧ x < base + length) ↔
      ∃ i a n, moved i ∧ piece i = some (a, n) ∧ a ≤ x ∧ x < a + n)
    (harea' : ∀ x, (base ≤ x ∧ x < base + length) ↔
      ∃ i a n, moved i ∧ piece' i = some (a, n) ∧ a ≤ x ∧ x < a + n)
    (hpos : ∀ i a n, moved i → piece' i = some (a, n) → 0 < n)
    (hapart : ∀ i j a m b n, moved i → moved j → i ≠ j → piece' i = some (a, m) →
      piece' j = some (b, n) → Apart a m b n) :
    Tiling regions piece' := by
  -- a piece that does not move has no position in the area
  have hout : ∀ i a n x, ¬moved i → piece i = some (a, n) → a ≤ x ∧ x < a + n →
      ¬(base ≤ x ∧ x < base + length) := by
    intro i a n x hi hpiece hx hin
    obtain ⟨j, b, m, hj, hpiece', hx'⟩ := (harea x).mp hin
    have hne : i ≠ j := by
      rintro rfl
      exact hi hj
    have hap := h.apart i j a n b m hne hpiece hpiece'
    unfold Apart at hap
    omega
  have hmixed : ∀ i j a m b n, moved i → ¬moved j → piece' i = some (a, m) →
      piece j = some (b, n) → Apart a m b n := by
    intro i j a m b n hi hj hpi hpj
    by_contra hover
    have hm := hpos i a m hi hpi
    have hn := h.pos j b n hpj
    unfold Apart at hover
    exact hout j b n (max a b) hj hpj (by omega)
      ((harea' (max a b)).mpr ⟨i, a, m, hi, hpi, by omega, by omega⟩)
  refine ⟨?_, ?_, ?_⟩
  · intro i a n hi
    rcases Classical.em (moved i) with hmoved | hmoved
    · exact hpos i a n hmoved hi
    · exact h.pos i a n (hsame i hmoved ▸ hi)
  · intro i j a m b n hne hi hj
    rcases Classical.em (moved i) with hmi | hmi
    · rcases Classical.em (moved j) with hmj | hmj
      · exact hapart i j a m b n hmi hmj hne hi hj
      · exact hmixed i j a m b n hmi hmj hi (hsame j hmj ▸ hj)
    · rcases Classical.em (moved j) with hmj | hmj
      · exact (hmixed j i b n a m hmj hmi hj (hsame i hmi ▸ hi)).symm
      · exact h.apart i j a m b n hne (hsame i hmi ▸ hi) (hsame j hmj ▸ hj)
  · intro x
    rw [← h.cover x]
    constructor
    · rintro ⟨i, a, n, hi, hx⟩
      rcases Classical.em (moved i) with hmoved | hmoved
      · obtain ⟨j, b, m, -, hj, hx'⟩ := (harea x).mp ((harea' x).mpr ⟨i, a, n, hmoved, hi, hx⟩)
        exact ⟨j, b, m, hj, hx'⟩
      · exact ⟨i, a, n, hsame i hmoved ▸ hi, hx⟩
    · rintro ⟨i, a, n, hi, hx⟩
      rcases Classical.em (moved i) with hmoved | hmoved
      · obtain ⟨j, b, m, -, hj, hx'⟩ := (harea' x).mp ((harea x).mpr ⟨i, a, n, hmoved, hi, hx⟩)
        exact ⟨j, b, m, hj, hx'⟩
      · exact ⟨i, a, n, (hsame i hmoved).trans hi, hx⟩

/-- The piece `i` is split in two, the second of which is `j`. -/
theorem Tiling.split (h : Tiling regions piece) {i j : ι} {a m n : Nat} (hne : i ≠ j)
    (hm : 0 < m) (hn : 0 < n) (hi : piece i = some (a, m + n)) (hj : piece j = none)
    (hi' : piece' i = some (a, m)) (hj' : piece' j = some (a + m, n))
    (hother : ∀ k, k ≠ i → k ≠ j → piece' k = piece k) : Tiling regions piece' := by
  refine h.rearrange (fun k => k = i ∨ k = j) a (m + n) (fun k hk => ?_) (fun x => ?_)
    (fun x => ?_) ?_ ?_
  · rw [not_or] at hk
    exact hother k hk.1 hk.2
  · constructor
    · intro hx
      exact ⟨i, a, m + n, .inl rfl, hi, hx⟩
    · rintro ⟨k, b, l, rfl | rfl, hk, hx⟩
      · rw [hi, Option.some.injEq, Prod.mk.injEq] at hk
        omega
      · rw [hj] at hk
        cases hk
  · constructor
    · intro hx
      -- an address of the area is in the first part or in the second
      rcases Nat.lt_or_ge x (a + m) with hlt | hge
      · exact ⟨i, a, m, .inl rfl, hi', hx.1, hlt⟩
      · exact ⟨j, a + m, n, .inr rfl, hj', hge, by omega⟩
    · rintro ⟨k, b, l, rfl | rfl, hk, hx⟩
      · rw [hi', Option.some.injEq, Prod.mk.injEq] at hk
        omega
      · rw [hj', Option.some.injEq, Prod.mk.injEq] at hk
        omega
  · rintro k b l (rfl | rfl) hk
    · rw [hi', Option.some.injEq, Prod.mk.injEq] at hk
      omega
    · rw [hj', Option.some.injEq, Prod.mk.injEq] at hk
      omega
  · rintro k k' b l b' l' (rfl | rfl) (rfl | rfl) hkk hk hk'
    · exact absurd rfl hkk
    · rw [hi', Option.some.injEq, Prod.mk.injEq] at hk
      rw [hj', Option.some.injEq, Prod.mk.injEq] at hk'
      left
      omega
    · rw [hj', Option.some.injEq, Prod.mk.injEq] at hk
      rw [hi', Option.some.injEq, Prod.mk.injEq] at hk'
      right
      omega
    · exact absurd rfl hkk

/-- The piece `i` takes the piece `j` behind it. -/
theorem Tiling.merge (h : Tiling regions piece) {i j : ι} {a m n : Nat}
    (hi : piece i = some (a, m)) (hj : piece j = some (a + m, n))
    (hi' : piece' i = some (a, m + n)) (hj' : piece' j = none)
    (hother : ∀ k, k ≠ i → k ≠ j → piece' k = piece k) : Tiling regions piece' := by
  have hm := h.pos i a m hi
  have hn := h.pos j (a + m) n hj
  refine h.rearrange (fun k => k = i ∨ k = j) a (m + n) (fun k hk => ?_) (fun x => ?_)
    (fun x => ?_) ?_ ?_
  · rw [not_or] at hk
    exact hother k hk.1 hk.2
  · constructor
    · intro hx
      -- read backwards: an address of the whole was in one of the parts
      rcases Nat.lt_or_ge x (a + m) with hlt | hge
      · exact ⟨i, a, m, .inl rfl, hi, hx.1, hlt⟩
      · exact ⟨j, a + m, n, .inr rfl, hj, hge, by omega⟩
    · rintro ⟨k, b, l, rfl | rfl, hk, hx⟩
      · rw [hi, Option.some.injEq, Prod.mk.injEq] at hk
        omega
      · rw [hj, Option.some.injEq, Prod.mk.injEq] at hk
        omega
  · constructor
    · intro hx
      exact ⟨i, a, m + n, .inl rfl, hi', hx⟩
    · rintro ⟨k, b, l, rfl | rfl, hk, hx⟩
      · rw [hi', Option.some.injEq, Prod.mk.injEq] at hk
        omega
      · rw [hj'] at hk
        cases hk
  · rintro k b l (rfl | rfl) hk
    · rw [hi', Option.some.injEq, Prod.mk.injEq] at hk
      omega
    · rw [hj'] at hk
      cases hk
  · rintro k k' b l b' l' (rfl | rfl) (rfl | rfl) hkk hk hk'
    · exact absurd rfl hkk
    · rw [hj'] at hk'
      cases hk'
    · rw [hj'] at hk
      cases hk
    · exact absurd rfl hkk

end Tilings

end RainWebServer.Lib
