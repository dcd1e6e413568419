import Mathlib.Data.Option.Basic

/-!
# Fallible Programs in Lockstep

Two computations in `Option` run in lockstep when both fail, or both end in related values, which
is `Option.Rel`. The library names nothing of any particular program.
-/

namespace RainWebServer.Lib

variable {α β γ δ ι κ : Type}

/-- Sequencing. -/
theorem lockstep_bind {R : α → β → Prop} {S : γ → δ → Prop} {a : Option α} {b : Option β}
    {f : α → Option γ} {g : β → Option δ} (h : Option.Rel R a b)
    (hfg : ∀ x y, a = some x → b = some y → R x y → Option.Rel S (f x) (g y)) :
    Option.Rel S (a.bind f) (b.bind g) := by
  cases h with
  | none => exact .none
  | some h => exact hfg _ _ rfl rfl h

/-- Mapping the results. -/
theorem lockstep_map {R : α → β → Prop} {S : γ → δ → Prop} {a : Option α} {b : Option β}
    {f : α → γ} {g : β → δ} (h : Option.Rel R a b) (hfg : ∀ x y, R x y → S (f x) (g y)) :
    Option.Rel S (a.map f) (b.map g) := by
  cases h with
  | none => exact .none
  | some h => exact .some (hfg _ _ h)

/-- A weaker relation. -/
theorem lockstep_mono {R S : α → β → Prop} {a : Option α} {b : Option β} (h : Option.Rel R a b)
    (hRS : ∀ x y, R x y → S x y) : Option.Rel S a b := by
  cases h with
  | none => exact .none
  | some h => exact .some (hRS _ _ h)

/-- A loop over a list, and over the list of renamed elements. -/
theorem lockstep_foldlM {R : α → β → Prop} {e : ι → κ} {f : α → ι → Option α}
    {g : β → κ → Option β} (hfg : ∀ x y i, R x y → Option.Rel R (f x i) (g y (e i))) (l : List ι)
    {x : α} {y : β} (h : R x y) : Option.Rel R (l.foldlM f x) ((l.map e).foldlM g y) := by
  induction l generalizing x y with
  | nil => exact .some h
  | cons i l ih =>
    rw [List.map_cons, List.foldlM_cons, List.foldlM_cons]
    exact lockstep_bind (hfg x y i h) fun _ _ _ _ => ih

end RainWebServer.Lib
