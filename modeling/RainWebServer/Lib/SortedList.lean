import Mathlib.Data.List.Basic
import Mathlib.Data.List.Perm.Basic

/-!
# Ordered Sets as Sorted Lists

An ordered set over a strict order that is given as a comparison function, as the list of its
elements in ascending order. The library names nothing of any particular program.

## Main results

- `insertSorted_perm`, `insertSorted_pairwise` : insertion of a new element
- `head_insertSorted` : which element is first afterwards
- `takeWhile_eq_filter`, `dropWhile_eq_filter` : a lower part of the set
-/

namespace RainWebServer.Lib

variable {α : Type} (lt : α → α → Bool)

/-- Insert an element; nothing happens when an equivalent one is there. -/
def insertSorted (x : α) : List α → List α
  | [] => [x]
  | y :: rest =>
    if lt x y then x :: y :: rest
    else if lt y x then y :: insertSorted x rest
    else y :: rest

/-- The list is in ascending order. -/
def Ascending (l : List α) : Prop := l.Pairwise (fun x y => lt x y = true)

/-- A strict total order. -/
structure StrictTotal : Prop where
  trans : ∀ x y z, lt x y = true → lt y z = true → lt x z = true
  total : ∀ x y, lt x y = false → lt y x = false → x = y

variable {lt}

/-- A new element joins the others. -/
theorem insertSorted_perm (h : StrictTotal lt) {x : α} {l : List α} (hx : x ∉ l) :
    (insertSorted lt x l).Perm (x :: l) := by
  induction l with
  | nil => exact .refl _
  | cons y rest ih =>
    rw [List.mem_cons, not_or] at hx
    rw [insertSorted]
    split
    · exact .refl _
    · rename_i hxy
      split
      · exact ((ih hx.2).cons y).trans (.swap x y rest)
      · rename_i hyx
        exact absurd (h.total x y (by simpa using hxy) (by simpa using hyx)) hx.1

theorem insertSorted_pairwise (h : StrictTotal lt) {x : α} {l : List α} (hx : x ∉ l)
    (hl : Ascending lt l) : Ascending lt (insertSorted lt x l) := by
  induction l with
  | nil => exact List.pairwise_singleton _ x
  | cons y rest ih =>
    rw [List.mem_cons, not_or] at hx
    obtain ⟨hy, hrest⟩ := List.pairwise_cons.mp hl
    rw [insertSorted]
    split
    · rename_i hxy
      refine List.pairwise_cons.mpr ⟨fun z hz => ?_, hl⟩
      rcases List.mem_cons.mp hz with rfl | hz
      · exact hxy
      · exact h.trans x y z hxy (hy z hz)
    · split
      · rename_i hyx
        refine List.pairwise_cons.mpr ⟨fun z hz => ?_, ih hx.2 hrest⟩
        rcases List.mem_cons.mp ((insertSorted_perm h hx.2).mem_iff.mp hz) with rfl | hz
        · exact hyx
        · exact hy z hz
      · exact hl

/-- The new element is first, or the first one stays. -/
theorem head_insertSorted (x y : α) (rest : List α) :
    (lt x y = true ∧ insertSorted lt x (y :: rest) = x :: y :: rest) ∨
      (lt x y = false ∧ ∃ rest', insertSorted lt x (y :: rest) = y :: rest') := by
  rw [insertSorted]
  cases hxy : lt x y with
  | true => exact .inl ⟨rfl, if_pos rfl⟩
  | false =>
    refine .inr ⟨rfl, ?_⟩
    rw [if_neg (by simp)]
    split
    · exact ⟨_, rfl⟩
    · exact ⟨_, rfl⟩

/-- What is taken from the front by a downward closed test is all that meets it. -/
theorem takeWhile_eq_filter {p : α → Bool} (hp : ∀ x y, lt x y = true → p y = true → p x = true)
    {l : List α} (hl : Ascending lt l) : l.takeWhile p = l.filter p := by
  induction l with
  | nil => rfl
  | cons y rest ih =>
    obtain ⟨hy, hrest⟩ := List.pairwise_cons.mp hl
    cases hpy : p y with
    | true => rw [List.takeWhile_cons_of_pos hpy, List.filter_cons_of_pos hpy, ih hrest]
    | false =>
      have hnone : rest.filter p = [] := by
        rw [List.filter_eq_nil_iff]
        intro z hz hpz
        rw [hp y z (hy z hz) hpz] at hpy
        cases hpy
      rw [List.takeWhile_cons_of_neg (by simp [hpy]), List.filter_cons_of_neg (by simp [hpy]),
        hnone]

theorem dropWhile_eq_filter {p : α → Bool} (hp : ∀ x y, lt x y = true → p y = true → p x = true)
    {l : List α} (hl : Ascending lt l) : l.dropWhile p = l.filter (fun x => !p x) := by
  induction l with
  | nil => rfl
  | cons y rest ih =>
    obtain ⟨hy, hrest⟩ := List.pairwise_cons.mp hl
    cases hpy : p y with
    | true => rw [List.dropWhile_cons_of_pos hpy, List.filter_cons_of_neg (by simp [hpy]), ih hrest]
    | false =>
      have hall : rest.filter (fun x => !p x) = rest := by
        rw [List.filter_eq_self]
        intro z hz
        cases hpz : p z with
        | true =>
          rw [hp y z (hy z hz) hpz] at hpy
          cases hpy
        | false => rfl
      rw [List.dropWhile_cons_of_neg (by simp [hpy]), List.filter_cons_of_pos (by simp [hpy]), hall]

end RainWebServer.Lib
