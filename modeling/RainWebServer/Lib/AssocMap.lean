import Mathlib.Data.List.AList

/-!
# Association Maps under a Map of their Values

`mapValues f m` has the keys of `m`, in the same order, with `f` applied to the values. It commutes
with lookups, insertions and removals. The library names nothing of any particular program.
-/

namespace RainWebServer.Lib

variable {κ β γ : Type}

/-- Apply `f` to the value of an entry. -/
def mapEntry (f : β → γ) : (Σ _ : κ, β) → Σ _ : κ, γ := Sigma.map id fun _ b => f b

/-- Apply `f` to every value. -/
def mapValues (f : β → γ) (m : AList (fun _ : κ => β)) : AList (fun _ : κ => γ) where
  entries := m.entries.map (mapEntry f)
  nodupKeys := by
    have hkeys : (m.entries.map (mapEntry f)).keys = m.entries.keys := by
      simp [List.keys, Function.comp_def, mapEntry, Sigma.map]
    rw [List.NodupKeys, hkeys]
    exact m.nodupKeys

variable (f : β → γ)

@[simp] theorem entries_mapValues (m : AList (fun _ : κ => β)) :
    (mapValues f m).entries = m.entries.map (mapEntry f) := rfl

@[simp] theorem mapValues_empty : mapValues f (∅ : AList (fun _ : κ => β)) = ∅ := rfl

variable [DecidableEq κ]

theorem lookup_mapValues (m : AList (fun _ : κ => β)) (a : κ) :
    (mapValues f m).lookup a = (m.lookup a).map f :=
  List.dlookup_map₂ a

theorem mem_mapValues (m : AList (fun _ : κ => β)) (a : κ) : a ∈ mapValues f m ↔ a ∈ m := by
  rw [← AList.lookup_isSome, lookup_mapValues, Option.isSome_map, AList.lookup_isSome]

theorem mapValues_erase (m : AList (fun _ : κ => β)) (a : κ) :
    mapValues f (m.erase a) = (mapValues f m).erase a := by
  apply AList.ext
  change (List.kerase a m.entries).map (mapEntry f) = List.kerase a (m.entries.map (mapEntry f))
  rw [List.kerase, List.kerase, List.eraseP_map]
  rfl

theorem mapValues_insert (m : AList (fun _ : κ => β)) (a : κ) (b : β) :
    mapValues f (m.insert a b) = (mapValues f m).insert a (f b) := by
  -- an insertion removes the key and puts the new entry in front
  have herase := congrArg AList.entries (mapValues_erase f m a)
  apply AList.ext
  rw [entries_mapValues, AList.entries_insert, List.map_cons, AList.entries_insert]
  exact congrArg (List.cons _) herase

end RainWebServer.Lib
