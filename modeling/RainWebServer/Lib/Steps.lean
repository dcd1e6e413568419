import Mathlib.Data.Option.Basic

/-!
# Runs of a Fallible Step Function

A program that takes one input after the other and may fail, as a function `step` into `Option`.
The library names nothing of any particular program.

## Main result

`throughout_iff` : if an invariant is kept exactly by the steps that meet a condition, then a
property that the invariant implies holds throughout a run if and only if all its steps meet the
condition
-/

namespace RainWebServer.Lib

variable {σ α : Type} (step : σ → α → Option σ)

/-- No step of the run fails, and every state on it has the property, the first one included. -/
def Throughout (P : σ → Prop) (s : σ) : List α → Prop
  | [] => P s
  | a :: rest => P s ∧ ∃ t, step s a = some t ∧ Throughout P t rest

/-- Every step of the run meets the condition in the state in which it is taken. -/
def EveryStep (C : σ → α → Prop) (s : σ) : List α → Prop
  | [] => True
  | a :: rest => C s a ∧ ∀ t, step s a = some t → EveryStep C t rest

instance decidableThroughout (P : σ → Prop) [DecidablePred P] :
    (s : σ) → (as : List α) → Decidable (Throughout step P s as)
  | s, [] => inferInstanceAs (Decidable (P s))
  | s, a :: rest =>
    match h : step s a with
    | none => isFalse fun hrun => by
        obtain ⟨-, t, ht, -⟩ := hrun
        rw [h] at ht
        cases ht
    | some u =>
      have := decidableThroughout P u rest
      decidable_of_iff (P s ∧ Throughout step P u rest) (by simp [Throughout, h])

instance decidableEveryStep (C : σ → α → Prop) [∀ s a, Decidable (C s a)] :
    (s : σ) → (as : List α) → Decidable (EveryStep step C s as)
  | _, [] => isTrue trivial
  | s, a :: rest =>
    match h : step s a with
    | none => decidable_of_iff (C s a) (by simp [EveryStep, h])
    | some u =>
      have := decidableEveryStep C u rest
      decidable_of_iff (C s a ∧ EveryStep step C u rest) (by simp [EveryStep, h])

variable {step} {P : σ → Prop} {C : σ → α → Prop}

/-- The first state of a run. -/
theorem Throughout.head {s : σ} {as : List α} (h : Throughout step P s as) : P s := by
  cases as with
  | nil => exact h
  | cons _ _ => exact h.1

theorem throughout_iff {Inv : σ → Prop} (hP : ∀ s, Inv s → P s)
    (hgood : ∀ s a, Inv s → C s a → ∃ t, step s a = some t ∧ Inv t)
    (hbad : ∀ s a, Inv s → ¬C s a → ∀ t, step s a = some t → ¬P t)
    {s : σ} (hs : Inv s) (as : List α) : Throughout step P s as ↔ EveryStep step C s as := by
  induction as generalizing s with
  | nil => exact ⟨fun _ => trivial, fun _ => hP s hs⟩
  | cons a rest ih =>
    constructor
    · rintro ⟨-, t, ht, hrest⟩
      have hcond : C s a := by
        by_contra hnot
        exact hbad s a hs hnot t ht hrest.head
      refine ⟨hcond, fun u hu => ?_⟩
      obtain ⟨t', ht', hinv⟩ := hgood s a hs hcond
      rw [hu, Option.some.injEq] at ht'
      rw [ht, Option.some.injEq] at hu
      subst ht' hu
      exact (ih hinv).mp hrest
    · rintro ⟨hcond, hrest⟩
      obtain ⟨t, ht, hinv⟩ := hgood s a hs hcond
      exact ⟨hP s hs, t, ht, (ih hinv).mpr (hrest t ht)⟩

end RainWebServer.Lib
