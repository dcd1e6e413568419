import Mathlib.Data.List.Infix
import Mathlib.Data.List.Induction

/-!
# Properties of a Growing Trace

A trace is a list that grows at its end. `AtEach x P trace` says that wherever `x` occurs,
`P` holds of what came before it and what came after it. `EveryWindow p n trace` says that among
any `n` consecutive elements at least one satisfies `p`.

## Main results

- `AtEach.append` : steps that do not do `x`
- `AtEach.snoc` : a step that does `x`
- `EveryWindow.snoc` : the windows are kept by counting the elements since the last `p`
-/

namespace RainWebServer.Lib

variable {α : Type}

/-! ## §1 Occurrences -/

/-- Wherever `x` occurs in the trace, `P` holds of what came before and after. -/
def AtEach (x : α) (P : List α → List α → Prop) (trace : List α) : Prop :=
  ∀ before after, trace = before ++ x :: after → P before after

theorem atEach_of_not_mem {x : α} {P : List α → List α → Prop} {trace : List α}
    (h : x ∉ trace) : AtEach x P trace := by
  intro before after heq
  apply absurd _ h
  rw [heq]
  simp

/-- Steps that do not do `x` only extend what comes after its occurrences. -/
theorem AtEach.append {x : α} {P : List α → List α → Prop} {trace es : List α}
    (h : AtEach x P trace) (hes : x ∉ es)
    (hmono : ∀ before after, P before after → P before (after ++ es)) :
    AtEach x P (trace ++ es) := by
  intro before after heq
  rcases List.append_eq_append_iff.mp heq with ⟨mid, hbefore, hes'⟩ | ⟨mid, htrace, hafter⟩
  · -- the occurrence would lie in `es`
    apply absurd _ hes
    rw [hes']
    simp
  · cases mid with
    | nil =>
      rw [List.nil_append] at hafter
      apply absurd _ hes
      rw [← hafter]
      simp
    | cons y mid =>
      rw [List.cons_append, List.cons.injEq] at hafter
      obtain ⟨rfl, rfl⟩ := hafter
      exact hmono before mid (h before mid htrace)

/-- A step that does `x` adds one occurrence, with nothing after it. -/
theorem AtEach.snoc {x : α} {P : List α → List α → Prop} {trace : List α}
    (h : AtEach x P trace) (hlast : P trace [])
    (hmono : ∀ before after, P before after → P before (after ++ [x])) :
    AtEach x P (trace ++ [x]) := by
  intro before after heq
  rcases List.eq_nil_or_concat after with rfl | ⟨init, last, rfl⟩
  · obtain ⟨rfl, -⟩ := List.append_inj' heq rfl
    exact hlast
  · rw [List.concat_eq_append, ← List.cons_append, ← List.append_assoc] at heq
    obtain ⟨htrace, hlast'⟩ := List.append_inj' heq rfl
    rw [List.concat_eq_append, ← List.singleton_inj.mp hlast']
    exact hmono before init (h before init htrace)

/-! ## §2 Windows -/

/-- Among any `n` consecutive elements of the trace at least one satisfies `p`. -/
def EveryWindow (p : α → Bool) (n : ℕ) (trace : List α) : Prop :=
  ∀ window, window <:+: trace → window.length = n → ∃ x ∈ window, p x = true

/-- The number of elements since the last one that satisfies `p`. -/
def sinceLast (p : α → Bool) (trace : List α) : ℕ :=
  trace.foldl (fun count x => if p x then 0 else count + 1) 0

@[simp] theorem sinceLast_snoc (p : α → Bool) (trace : List α) (x : α) :
    sinceLast p (trace ++ [x]) = if p x then 0 else sinceLast p trace + 1 := by
  simp [sinceLast]

/-- A window at the end without `p` has been counted. -/
theorem length_le_sinceLast {p : α → Bool} {trace window : List α} (h : window <:+ trace)
    (hnone : ∀ x ∈ window, p x = false) : window.length ≤ sinceLast p trace := by
  induction window using List.reverseRecOn generalizing trace with
  | nil => exact Nat.zero_le _
  | append_singleton window x ih =>
    obtain ⟨before, rfl⟩ := h
    rw [← List.append_assoc, sinceLast_snoc, if_neg (by simp [hnone x]), List.length_append]
    have hrest := ih (List.suffix_append before window) fun y hy =>
      hnone y (List.mem_append_left _ hy)
    exact Nat.succ_le_succ hrest

theorem EveryWindow.nil {p : α → Bool} {n : ℕ} (hn : 0 < n) : EveryWindow p n [] := by
  intro window hwindow hlength
  rw [List.infix_nil.mp hwindow] at hlength
  exact absurd hlength (Nat.ne_of_lt hn)

/-- A further element keeps the windows if fewer than `n` have passed since the last `p`. -/
theorem EveryWindow.snoc {p : α → Bool} {n : ℕ} {trace : List α} {x : α}
    (h : EveryWindow p n trace) (hcount : sinceLast p (trace ++ [x]) < n) :
    EveryWindow p n (trace ++ [x]) := by
  intro window hwindow hlength
  rcases List.infix_concat_iff.mp hwindow with hlast | hbefore
  · by_contra hnone
    have hle : window.length ≤ sinceLast p (trace ++ [x]) := by
      refine length_le_sinceLast hlast fun y hy => ?_
      exact Bool.eq_false_iff.mpr fun hp => hnone ⟨y, hy, hp⟩
    omega
  · exact h window hbefore hlength

end RainWebServer.Lib
