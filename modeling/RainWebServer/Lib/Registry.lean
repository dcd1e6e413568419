import Mathlib.Data.List.Nodup
import Mathlib.Data.List.Perm.Basic
import Mathlib.Logic.Function.Basic

/-!
# Registries of Heap Objects

A registry lists the objects of a heap, each once, under a key that is computed from the object.
The library names nothing of any particular program.

## Main results

- `Registered.new`, `Registered.delete`, `Registered.rekey` : the changes of heap and registry
- `Registered.filter_eq` : an object is listed exactly once, under its key
-/

namespace RainWebServer.Lib

variable {κ β γ : Type}

/-- `entries` lists exactly the objects of `heap`, each once and under its key. -/
structure Registered (key : β → γ) (heap : κ → Option β) (entries : List (γ × κ)) : Prop where
  nodup : (entries.map Prod.snd).Nodup
  keyed : ∀ e ∈ entries, ∃ b, heap e.2 = some b ∧ key b = e.1
  listed : ∀ p b, heap p = some b → (key b, p) ∈ entries

/-- What an updated heap holds. -/
theorem update_eq_some [DecidableEq κ] {heap : κ → Option β} {p q : κ} {v : Option β} {b : β}
    (h : Function.update heap p v q = some b) :
    (q = p ∧ v = some b) ∨ (q ≠ p ∧ heap q = some b) := by
  rw [Function.update_apply] at h
  split at h
  · rename_i hq
    exact .inl ⟨hq, h⟩
  · rename_i hq
    exact .inr ⟨hq, h⟩

namespace Registered

variable {key : β → γ} {heap : κ → Option β} {entries entries' : List (γ × κ)}

/-- The order of the entries does not matter. -/
theorem perm (h : Registered key heap entries) (hperm : entries'.Perm entries) :
    Registered key heap entries' := by
  refine ⟨?_, fun e he => h.keyed e (hperm.mem_iff.mp he),
    fun p b hb => hperm.mem_iff.mpr (h.listed p b hb)⟩
  exact ((hperm.map Prod.snd).nodup_iff).mpr h.nodup

variable [DecidableEq κ]

/-- A new object at a free address. -/
theorem new (h : Registered key heap entries) {p : κ} (hfree : heap p = none) (b : β) :
    Registered key (Function.update heap p (some b)) ((key b, p) :: entries) := by
  have hnot : ∀ e ∈ entries, e.2 ≠ p := by
    intro e he hep
    obtain ⟨b', hb', -⟩ := h.keyed e he
    rw [hep, hfree] at hb'
    cases hb'
  refine ⟨?_, fun e he => ?_, fun q c hc => ?_⟩
  · rw [List.map_cons, List.nodup_cons]
    refine ⟨fun hmem => ?_, h.nodup⟩
    obtain ⟨e, he, hep⟩ := List.mem_map.mp hmem
    exact hnot e he hep
  · rcases List.mem_cons.mp he with rfl | he
    · exact ⟨b, Function.update_self .., rfl⟩
    · rw [Function.update_of_ne (hnot e he)]
      exact h.keyed e he
  · rcases update_eq_some hc with ⟨rfl, hbc⟩ | ⟨-, hc⟩
    · cases hbc
      exact List.mem_cons_self ..
    · exact List.mem_cons_of_mem _ (h.listed q c hc)

/-- The object of the first entry is deleted. -/
theorem delete {e : γ × κ} (h : Registered key heap (e :: entries)) :
    Registered key (Function.update heap e.2 none) entries := by
  obtain ⟨hnot, hnodup⟩ := List.nodup_cons.mp h.nodup
  have hne : ∀ e' ∈ entries, e'.2 ≠ e.2 :=
    fun e' he' heq => hnot (heq ▸ List.mem_map_of_mem he')
  refine ⟨hnodup, fun e' he' => ?_, fun q c hc => ?_⟩
  · rw [Function.update_of_ne (hne e' he')]
    exact h.keyed e' (List.mem_cons_of_mem _ he')
  · rcases update_eq_some hc with ⟨-, hbc⟩ | ⟨hq, hc⟩
    · cases hbc
    · rcases List.mem_cons.mp (h.listed q c hc) with heq | hmem
      · exact absurd (congrArg Prod.snd heq) hq
      · exact hmem

/-- The object of the first entry changes, and with it its key. -/
theorem rekey {e : γ × κ} (h : Registered key heap (e :: entries)) (b : β) :
    Registered key (Function.update heap e.2 (some b)) ((key b, e.2) :: entries) := by
  have hnew := h.delete.new (p := e.2) (Function.update_self ..) b
  rwa [Function.update_idem] at hnew

/-- An object is listed exactly once. -/
theorem filter_eq (h : Registered key heap entries) {p : κ} {b : β} (hb : heap p = some b) :
    entries.filter (fun e => e.2 = p) = [(key b, p)] := by
  have hmem := h.listed p b hb
  have hnodup := h.nodup
  clear h
  induction entries with
  | nil => cases hmem
  | cons e rest ih =>
    rw [List.map_cons, List.nodup_cons] at hnodup
    rcases List.mem_cons.mp hmem with rfl | hmem
    · have hnone : rest.filter (fun e => e.2 = p) = [] := by
        rw [List.filter_eq_nil_iff]
        intro e he hep
        exact hnodup.1 (List.mem_map.mpr ⟨e, he, of_decide_eq_true hep⟩)
      rw [List.filter_cons_of_pos (by simp), hnone]
    · have hne : e.2 ≠ p := by
        intro hep
        exact hnodup.1 (List.mem_map.mpr ⟨_, hmem, hep.symm⟩)
      rw [List.filter_cons_of_neg (by simpa using hne)]
      exact ih hmem hnodup.2

end Registered

end RainWebServer.Lib
