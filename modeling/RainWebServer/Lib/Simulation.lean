import Mathlib.Data.List.Forall2
import RainWebServer.Lib.Machine

/-!
# Simulation Between Machines

A machine that contains another one, or that refines it: each of its steps is matched by a run of
the other machine, which may be empty. The library names nothing of any particular program.

## Main results

- `Simulation.reaches` : the steps of a run are matched, one after another, by a run of the other
  machine
-/

namespace RainWebServer.Lib

namespace Machine

variable {σ τ α β : Type}

/-- The steps of `M` between states that satisfy `I` are matched by runs of `N`; `P` says which
    runs may match an action. -/
structure Simulation (M : Machine σ α) (N : Machine τ β) (I : σ → Prop) (R : σ → τ → Prop)
    (P : α → List β → Prop) : Prop where
  /-- The states that are considered. -/
  keeps : ∀ s a s', I s → M.enabled s a = true → M.step s a = some s' → I s'
  matched : ∀ s t a s', I s → R s t → M.enabled s a = true → M.step s a = some s' →
    ∃ bs t', N.Reaches t bs t' ∧ R s' t' ∧ P a bs

/-- **Runs are matched by runs.** -/
theorem Simulation.reaches {M : Machine σ α} {N : Machine τ β} {I : σ → Prop} {R : σ → τ → Prop}
    {P : α → List β → Prop} (h : M.Simulation N I R P) {s s' : σ} {t : τ} {as : List α} (hI : I s)
    (hR : R s t) (hrun : M.Reaches s as s') :
    ∃ bss t', N.Reaches t bss.flatten t' ∧ I s' ∧ R s' t' ∧ List.Forall₂ P as bss := by
  induction hrun with
  | refl => exact ⟨[], t, .refl, hI, hR, .nil⟩
  | @snoc as u v a _ he hs ih =>
    obtain ⟨bss, t', hbefore, hIu, hRu, hmatches⟩ := ih
    obtain ⟨bs, t'', hlast, hRv, hP⟩ := h.matched u t' a v hIu hRu he hs
    refine ⟨bss ++ [bs], t'', ?_, h.keeps u a v hIu he hs, hRv, ?_⟩
    · rw [List.flatten_append, List.flatten_singleton]
      exact hbefore.trans hlast
    · exact List.rel_append hmatches (.cons hP .nil)

/-- An action that may only be matched by runs through `b` brings `b` into the matching run. -/
theorem mem_flatten_of_forall₂ {P : α → List β → Prop} {as : List α} {bss : List (List β)} {a : α}
    {b : β} (h : List.Forall₂ P as bss) (ha : a ∈ as) (hb : ∀ bs, P a bs → b ∈ bs) :
    b ∈ bss.flatten := by
  induction h with
  | nil => cases ha
  | @cons a' bs as bss hP _ ih =>
    rw [List.flatten_cons, List.mem_append]
    rcases List.mem_cons.mp ha with rfl | ha
    · exact .inl (hb bs hP)
    · exact .inr (ih ha)

end Machine

end RainWebServer.Lib
