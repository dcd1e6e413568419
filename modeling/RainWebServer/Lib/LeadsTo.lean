import RainWebServer.Lib.Machine

/-!
# What Leads to What

A small library for progress: some actions, taken one after another with any others in between,
bring about what is wanted, however the run is scheduled. The library names nothing of any
particular program.

## Main results

- `LeadsTo.action` : a condition that can only turn into the next one, and does so with `a`
- `LeadsTo.trans` : conditions chain
-/

namespace RainWebServer.Lib

namespace Machine

variable {σ α : Type} {M : Machine σ α} {I P Q R : σ → Prop}

/-- The steps between states that satisfy `I` preserve `P`. -/
def Stable (M : Machine σ α) (I P : σ → Prop) : Prop :=
  ∀ s a t, I s → P s → M.enabled s a = true → M.step s a = some t → P t

/-- A run that starts with `P` and takes the actions `as`, in this order and maybe with others in
    between, ends with `Q`. -/
def LeadsTo (M : Machine σ α) (I P : σ → Prop) (as : List α) (Q : σ → Prop) : Prop :=
  ∀ s bs t, I s → P s → M.Reaches s bs t → as.Sublist bs → Q t

/-- An inductive invariant is stable. -/
theorem Invariant.stable {s : σ} (h : M.Invariant s I) : M.Stable I I := by
  intro u a t hu _ he hs
  obtain ⟨v, hv, hI⟩ := h.step u a hu he
  rw [hs, Option.some.injEq] at hv
  exact hv ▸ hI

/-- What is stable holds at the end of a run. -/
theorem Stable.reaches (hI : M.Stable I I) (hP : M.Stable I P) {s t : σ} {as : List α} (hs : I s)
    (h : P s) (hrun : M.Reaches s as t) : P t := by
  have hboth : I t ∧ P t := hrun.preserves (I := fun u => I u ∧ P u)
    (fun u a v ⟨hu, hp⟩ he hv => ⟨hI u a v hu hu he hv, hP u a v hu hp he hv⟩) ⟨hs, h⟩
  exact hboth.2

/-- **One action.** Until `a` is taken, `P` can turn only into `Q`; and `a` turns it into `Q`. -/
theorem LeadsTo.action (hI : M.Stable I I) {a : α}
    (hP : ∀ s b t, I s → P s → M.enabled s b = true → M.step s b = some t → P t ∨ Q t)
    (ha : ∀ s t, I s → P s → M.enabled s a = true → M.step s a = some t → Q t)
    (hQ : M.Stable I Q) : M.LeadsTo I P [a] Q := by
  intro s bs t hs h hrun hsub
  induction bs generalizing s with
  | nil => cases hsub
  | cons b bs ih =>
    obtain ⟨u, he, hstep, hrest⟩ := hrun.head
    have hu : I u := hI s b u hs hs he hstep
    rcases List.sublist_cons_iff.mp hsub with hlater | ⟨_, heq, -⟩
    · rcases hP s b u hs h he hstep with hp | hq
      · exact ih u hu hp hrest hlater
      · exact hI.reaches hQ hu hq hrest
    · obtain ⟨rfl, -⟩ := List.cons.inj heq
      exact hI.reaches hQ hu (ha s u hs h he hstep) hrest

/-- **Chaining.** -/
theorem LeadsTo.trans (hI : M.Stable I I) {as bs : List α} (h₁ : M.LeadsTo I P as Q)
    (h₂ : M.LeadsTo I Q bs R) : M.LeadsTo I P (as ++ bs) R := by
  intro s cs t hs h hrun hsub
  obtain ⟨cs₁, cs₂, rfl, hsub₁, hsub₂⟩ := List.append_sublist_iff.mp hsub
  obtain ⟨u, hrun₁, hrun₂⟩ := hrun.of_append
  exact h₂ u cs₂ t (hI.reaches hI hs hs hrun₁) (h₁ s cs₁ u hs h hrun₁ hsub₁) hrun₂ hsub₂

/-- What is stable is there at the end as well. -/
theorem LeadsTo.keeping (hI : M.Stable I I) {as : List α} (h : M.LeadsTo I P as Q)
    (hR : M.Stable I R) (hPR : ∀ s, P s → R s) : M.LeadsTo I P as (fun s => Q s ∧ R s) :=
  fun s bs t hs hp hrun hsub =>
    ⟨h s bs t hs hp hrun hsub, hI.reaches hR hs (hPR s hp) hrun⟩

end Machine

end RainWebServer.Lib
