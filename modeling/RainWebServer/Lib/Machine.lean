import Mathlib.Data.List.Basic

/-!
# Guarded Machines: Runs, Faults and Invariants

A small library for programs that are modelled as a state with a step function.
It names nothing of any particular program.

A `Machine` separates two ways in which an action may have no next state:

- `enabled s a = false`: the action cannot be taken in `s` (a lock is held, a file
  descriptor is not registered, the environment does not offer it)
- `enabled s a = true` and `step s a = none`: the action is taken and **faults**
  (a null dereference, an access to freed storage)

An interleaving is a list of actions each of which is enabled when it is taken, so
a statement about every interleaving is a statement about every action list.

## Main results

- `Machine.invariant_reaches` : an inductive invariant holds in every reached state
- `Machine.invariant_safe` : and no enabled action faults there
- `Machine.invariant_reaches_along` : the same for runs whose steps all meet a condition
-/

namespace RainWebServer.Lib

/-- A guarded machine over states `σ` and actions `α`. -/
structure Machine (σ α : Type) where
  /-- May the action be taken in this state? -/
  enabled : σ → α → Bool
  /-- The effect of the action; `none` is a fault. -/
  step : σ → α → Option σ

namespace Machine

variable {σ α : Type} (M : Machine σ α)

/-! ## §1 Runs -/

/-- Perform a list of actions; `none` if one of them is not enabled or faults. -/
def run : σ → List α → Option σ
  | s, [] => some s
  | s, a :: as => if M.enabled s a then (M.step s a).bind (fun t => run t as) else none

/-- `M.Reaches s as t`: performing `as` from `s` ends in `t`. -/
inductive Reaches (s : σ) : List α → σ → Prop where
  | refl : Reaches s [] s
  | snoc {as : List α} {t u : σ} {a : α} :
      Reaches s as t → M.enabled t a = true → M.step t a = some u →
      Reaches s (as ++ [a]) u

/-- No enabled action faults in `s`. -/
def Safe (s : σ) : Prop :=
  ∀ a, M.enabled s a = true → M.step s a ≠ none

variable {M}

/-- Runs extend at the front as well as at the back. -/
theorem Reaches.cons {s t u : σ} {a : α} {as : List α}
    (he : M.enabled s a = true) (hs : M.step s a = some t) (h : M.Reaches t as u) :
    M.Reaches s (a :: as) u := by
  induction h with
  | refl =>
    have hlast : M.Reaches s ([] ++ [a]) t := .snoc .refl he hs
    exact hlast
  | snoc _ he' hs' ih =>
    rw [← List.cons_append]
    exact .snoc ih he' hs'

/-- Runs compose. -/
theorem Reaches.trans {s t u : σ} {as bs : List α} (h : M.Reaches s as t) (h' : M.Reaches t bs u) :
    M.Reaches s (as ++ bs) u := by
  induction h' with
  | refl => rwa [List.append_nil]
  | snoc _ he hs ih =>
    rw [← List.append_assoc]
    exact .snoc ih he hs

theorem Reaches.eq_of_nil {s t : σ} (h : M.Reaches s [] t) : t = s := by
  generalize hl : ([] : List α) = l at h
  cases h with
  | refl => rfl
  | snoc => simp at hl

/-- A run that is not empty starts with its first action. -/
theorem Reaches.head {s u : σ} {a : α} {as : List α} (h : M.Reaches s (a :: as) u) :
    ∃ t, M.enabled s a = true ∧ M.step s a = some t ∧ M.Reaches t as u := by
  generalize hl : a :: as = l at h
  -- the run grows at its end, behind its first action
  induction h generalizing as with
  | refl => cases hl
  | snoc hrun he hs ih =>
    rename_i as' t u b
    cases as' with
    | nil =>
      cases hl
      rw [hrun.eq_of_nil] at he hs
      exact ⟨u, he, hs, .refl⟩
    | cons c as' =>
      rw [List.cons_append, List.cons.injEq] at hl
      obtain ⟨rfl, rfl⟩ := hl
      obtain ⟨v, hv, hsv, hrest⟩ := ih rfl
      exact ⟨v, hv, hsv, .snoc hrest he hs⟩

/-- A run passes through the state between its two parts. -/
theorem Reaches.of_append {s u : σ} {as bs : List α} (h : M.Reaches s (as ++ bs) u) :
    ∃ t, M.Reaches s as t ∧ M.Reaches t bs u := by
  induction as generalizing s with
  | nil => exact ⟨s, .refl, h⟩
  | cons a as ih =>
    obtain ⟨t, he, hs, hrest⟩ := h.head
    obtain ⟨v, hbefore, hafter⟩ := ih hrest
    exact ⟨v, .cons he hs hbefore, hafter⟩

/-- The executable run is a run. -/
theorem reaches_of_run {s t : σ} {as : List α} (h : M.run s as = some t) :
    M.Reaches s as t := by
  induction as generalizing s with
  | nil =>
    simp only [run, Option.some.injEq] at h
    exact h ▸ .refl
  | cons a as ih =>
    simp only [run] at h
    split at h
    · rename_i he
      obtain ⟨u, hu, hrest⟩ := Option.bind_eq_some_iff.mp h
      exact Reaches.cons he hu (ih hrest)
    · cases h

/-- A run is one for the executable definition. -/
theorem Reaches.run_eq {s t : σ} {as : List α} (h : M.Reaches s as t) : M.run s as = some t := by
  induction as generalizing s with
  | nil => rw [run, h.eq_of_nil]
  | cons a as ih =>
    obtain ⟨u, he, hs, hrest⟩ := h.head
    rw [run, if_pos he, hs]
    exact ih hrest

/-- The actions of a run determine where it ends. -/
theorem Reaches.unique {s t u : σ} {as : List α} (h : M.Reaches s as t) (h' : M.Reaches s as u) :
    t = u :=
  Option.some.inj (h.run_eq.symm.trans h'.run_eq)

/-! ## §2 Invariants -/

/-- An inductive invariant: it holds in `s`, and no enabled step faults or leaves it. -/
structure Invariant (M : Machine σ α) (s : σ) (I : σ → Prop) : Prop where
  init : I s
  step : ∀ t a, I t → M.enabled t a = true → ∃ u, M.step t a = some u ∧ I u

/-- An inductive invariant holds in every reached state. -/
theorem invariant_reaches {s : σ} {I : σ → Prop} (hI : M.Invariant s I)
    {as : List α} {t : σ} (h : M.Reaches s as t) : I t := by
  induction h with
  | refl => exact hI.init
  | snoc _ he hs ih =>
    obtain ⟨u', hu', hIu⟩ := hI.step _ _ ih he
    rw [hs, Option.some.injEq] at hu'
    exact hu' ▸ hIu

/-- What every step that does not fault preserves holds after a run if it holds before. -/
theorem Reaches.preserves {I : σ → Prop} {s t : σ} {as : List α} (h : M.Reaches s as t)
    (hstep : ∀ t a u, I t → M.enabled t a = true → M.step t a = some u → I u) (hs : I s) : I t := by
  induction h with
  | refl => exact hs
  | snoc _ he hu ih => exact hstep _ _ _ ih he hu

/-- Under an inductive invariant no reached state can fault. -/
theorem invariant_safe {s : σ} {I : σ → Prop} (hI : M.Invariant s I)
    {as : List α} {t : σ} (h : M.Reaches s as t) : M.Safe t := by
  intro a he
  obtain ⟨u, hu, _⟩ := hI.step t a (invariant_reaches hI h) he
  simp [hu]

/-! ## §3 Conditional runs -/

/-- A run whose steps all meet the condition `C` on the state before the step. -/
inductive ReachesAlong (M : Machine σ α) (C : σ → α → Prop) (s : σ) : List α → σ → Prop where
  | refl : ReachesAlong M C s [] s
  | snoc {as : List α} {t u : σ} {a : α} :
      ReachesAlong M C s as t → M.enabled t a = true → C t a → M.step t a = some u →
      ReachesAlong M C s (as ++ [a]) u

/-- A conditional run is a run. -/
theorem ReachesAlong.reaches {C : σ → α → Prop} {s t : σ} {as : List α}
    (h : M.ReachesAlong C s as t) : M.Reaches s as t := by
  induction h with
  | refl => exact .refl
  | snoc _ he _ hs ih => exact .snoc ih he hs

/-- A run of actions that all meet a condition. -/
theorem Reaches.along {P : α → Prop} {s t : σ} {as : List α} (h : M.Reaches s as t)
    (hP : ∀ a ∈ as, P a) : M.ReachesAlong (fun _ a => P a) s as t := by
  induction h with
  | refl => exact .refl
  | snoc _ he hs ih =>
    refine .snoc (ih fun a ha => hP a (List.mem_append_left _ ha)) he ?_ hs
    exact hP _ (List.mem_append_right _ (List.mem_singleton_self _))

/-- A weaker condition admits more runs. -/
theorem ReachesAlong.mono {C D : σ → α → Prop} {s t : σ} {as : List α}
    (hCD : ∀ u a, C u a → D u a) (h : M.ReachesAlong C s as t) : M.ReachesAlong D s as t := by
  induction h with
  | refl => exact .refl
  | snoc _ he hc hs ih => exact .snoc ih he (hCD _ _ hc) hs

/-- Perform a list of actions that all meet the decidable condition `C`. -/
def runAlong (M : Machine σ α) (C : σ → α → Bool) : σ → List α → Option σ
  | s, [] => some s
  | s, a :: as =>
    if M.enabled s a && C s a then (M.step s a).bind (fun t => runAlong M C t as) else none

/-- Conditional runs extend at the front as well as at the back. -/
theorem ReachesAlong.cons {C : σ → α → Prop} {s t u : σ} {a : α} {as : List α}
    (he : M.enabled s a = true) (hc : C s a) (hs : M.step s a = some t)
    (h : M.ReachesAlong C t as u) : M.ReachesAlong C s (a :: as) u := by
  induction h with
  | refl =>
    have hlast : M.ReachesAlong C s ([] ++ [a]) t := .snoc .refl he hc hs
    exact hlast
  | snoc _ he' hc' hs' ih =>
    rw [← List.cons_append]
    exact .snoc ih he' hc' hs'

/-- The executable conditional run is one. -/
theorem reachesAlong_of_runAlong {C : σ → α → Bool} {s t : σ} {as : List α}
    (h : M.runAlong C s as = some t) : M.ReachesAlong (fun s a => C s a = true) s as t := by
  induction as generalizing s with
  | nil =>
    simp only [runAlong, Option.some.injEq] at h
    exact h ▸ .refl
  | cons a as ih =>
    simp only [runAlong] at h
    split at h
    · rename_i he
      rw [Bool.and_eq_true] at he
      obtain ⟨u, hu, hrest⟩ := Option.bind_eq_some_iff.mp h
      exact ReachesAlong.cons he.1 he.2 hu (ih hrest)
    · cases h

/-- An invariant that the steps meeting `C` preserve holds along every conditional run. -/
theorem invariant_reaches_along {C : σ → α → Prop} {s : σ} {I : σ → Prop} (hinit : I s)
    (hstep : ∀ t a u, I t → M.enabled t a = true → C t a → M.step t a = some u → I u)
    {as : List α} {t : σ} (h : M.ReachesAlong C s as t) : I t := by
  induction h with
  | refl => exact hinit
  | snoc _ he hc hs ih => exact hstep _ _ _ ih he hc hs

/-- The last step of a conditional run. -/
theorem ReachesAlong.last {C : σ → α → Prop} {s t u : σ} {as : List α} {a : α}
    (h : M.ReachesAlong C s (as ++ [a]) u) (ht : M.Reaches s as t) :
    M.ReachesAlong C s as t ∧ C t a := by
  generalize hl : as ++ [a] = l at h
  cases h with
  | refl => simp at hl
  | snoc hrun he hc hs =>
    obtain ⟨rfl, hlast⟩ := List.append_inj' hl rfl
    cases hlast
    rw [ht.unique hrun.reaches]
    exact ⟨hrun, hc⟩

/-- If an invariant is kept exactly by the steps that meet `C`, and an action that does not meet it
    leaves a state without `P`, then a run meets `C` throughout if and only if every state on the
    way has `P`. `D` restricts the actions. -/
theorem Reaches.along_iff {C : σ → α → Prop} {I P : σ → Prop} {D : α → Prop} {s t : σ} {as : List α}
    (hinit : I s) (hP : ∀ t, I t → P t)
    (hgood : ∀ t a u, I t → M.enabled t a = true → C t a → M.step t a = some u → I u)
    (hbad : ∀ t a u, I t → D a → M.enabled t a = true → ¬C t a → M.step t a = some u → ¬P u)
    (h : M.Reaches s as t) (hD : ∀ a ∈ as, D a) :
    M.ReachesAlong C s as t ↔ ∀ pre u, pre <+: as → M.Reaches s pre u → P u := by
  -- a prefix of the longer run is the run itself or a prefix of the run before
  induction h with
  | refl =>
    refine ⟨fun _ pre u hpre hu => ?_, fun _ => .refl⟩
    rw [List.prefix_nil] at hpre
    subst hpre
    rw [hu.eq_of_nil]
    exact hP s hinit
  | @snoc as t u a hrun he hs ih =>
    have ih := ih fun b hb => hD b (List.mem_append_left _ hb)
    constructor
    · intro hall pre v hpre hv
      obtain ⟨hbefore, hc⟩ := hall.last hrun
      rcases List.prefix_concat_iff.mp hpre with rfl | hpre
      · rw [hv.unique (hrun.snoc he hs)]
        exact hP u (hgood t a u (invariant_reaches_along hinit hgood hbefore) he hc hs)
      · exact ih.mp hbefore pre v hpre hv
    · intro hall
      have hbefore := ih.mpr fun pre v hpre => hall pre v (hpre.trans (List.prefix_append _ _))
      have hI := invariant_reaches_along hinit hgood hbefore
      refine .snoc hbefore he ?_ hs
      -- the last action would leave a state without `P`
      by_contra hnot
      exact hbad t a u hI (hD a (by simp)) he hnot hs (hall _ u (List.prefix_refl _)
        (hrun.snoc he hs))

end Machine

end RainWebServer.Lib
