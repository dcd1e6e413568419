import Mathlib.Data.List.Basic

/-!
# Crossings of a Mark

A small library for programs that report when a level comes up to a mark: the values at which a
sequence of levels does so. It names nothing of any particular program.

## Main result

`upCrossings_snoc` : one more level
-/

namespace RainWebServer.Lib

variable {α : Type} [LT α] [LE α] [DecidableLT α] [DecidableLE α]

/-- The values at which a sequence comes up to the mark `m` from below. -/
def upCrossings (m : α) : List α → List α
  | [] => []
  | [_] => []
  | a :: b :: ls => (if a < m ∧ m ≤ b then [b] else []) ++ upCrossings m (b :: ls)

/-- **One more level** is a crossing or it is none. -/
theorem upCrossings_snoc (m : α) (ls : List α) (a b : α) :
    upCrossings m (ls ++ [a] ++ [b]) =
      upCrossings m (ls ++ [a]) ++ (if a < m ∧ m ≤ b then [b] else []) := by
  induction ls with
  | nil => simp [upCrossings]
  | cons x ls ih =>
    cases ls with
    | nil => simp [upCrossings]
    | cons y ls =>
      simp only [List.cons_append, upCrossings, List.append_assoc] at ih ⊢
      rw [ih]

end RainWebServer.Lib
