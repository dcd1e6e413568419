import Mathlib.Data.Set.Card

/-!
# Lossy Maps

What a cache promises to its users, whatever it evicts: a map in which an entry may disappear when a
new key is put into a full cache, and at no other time. Nothing here is about a particular cache.

A map is a function to `Option`. The *exact* map loses nothing, and is what the answers of a lossy
map are compared with.

## Main results

- `LossyRun.agrees` : every answer is that of the exact map, or a miss
- `LossyRun.exact_of_fits` : as long as the entries fit, there are no misses either
-/

namespace RainWebServer.Lib

/-! ## §1 The exact map -/

/-- An operation on a map. -/
inductive MapOp (κ ν : Type) where
  | put (key : κ) (value : ν)
  | get (key : κ)
  | clear
  deriving DecidableEq

variable {κ ν : Type}

/-- The answer of an operation, which only a `get` has. -/
def MapOp.answer (m : κ → Option ν) : MapOp κ ν → Option ν
  | .get key => m key
  | .put _ _ | .clear => none

/-- The keys of a map. -/
def keysOf (m : κ → Option ν) : Set κ := {k | m k ≠ none}

/-- The map holds exactly `capacity` entries. -/
def Full (capacity : Int) (m : κ → Option ν) : Prop :=
  ∃ n : Nat, (n : Int) = capacity ∧ (keysOf m).encard = n

variable [DecidableEq κ]

/-- The exact map after an operation. -/
def exactStep (m : κ → Option ν) : MapOp κ ν → κ → Option ν
  | .put key value => Function.update m key (some value)
  | .get _ => m
  | .clear => fun _ => none

/-- The exact map after a sequence of operations. -/
def exactAll (m : κ → Option ν) (ops : List (MapOp κ ν)) : κ → Option ν := ops.foldl exactStep m

/-- The answers of the exact map. -/
def exactAnswers (m : κ → Option ν) : List (MapOp κ ν) → List (Option ν)
  | [] => []
  | op :: ops => op.answer m :: exactAnswers (exactStep m op) ops

/-- No key is ever put into a full exact map. -/
def Fits (capacity : Int) (m : κ → Option ν) : List (MapOp κ ν) → Prop
  | [] => True
  | op :: ops => (∀ key value, op = .put key value → m key = none → ¬Full capacity m) ∧
    Fits capacity (exactStep m op) ops

/-- A computable check of `Fits`, by the list of the keys that the exact map has. -/
def fitsWithin (capacity : Int) (keys : List κ) : List (MapOp κ ν) → Bool
  | [] => true
  | .put key _ :: ops =>
    (decide (key ∈ keys) || decide ((keys.length : Int) < capacity)) &&
      fitsWithin capacity (keys.insert key) ops
  | .get _ :: ops => fitsWithin capacity keys ops
  | .clear :: ops => fitsWithin capacity [] ops

/-- Fewer keys than `capacity` do not fill the map. -/
theorem not_full_of_length_lt {capacity : Int} {m : κ → Option ν} {keys : List κ}
    (hkeys : ∀ k, m k ≠ none → k ∈ keys) (hlt : (keys.length : Int) < capacity) :
    ¬Full capacity m := by
  rintro ⟨n, rfl, hn⟩
  have hsub : keysOf m ⊆ (keys.toFinset : Set κ) := by
    intro k hk
    rw [Finset.mem_coe, List.mem_toFinset]
    exact hkeys k hk
  have hle : (n : ℕ∞) ≤ (keys.toFinset.card : ℕ∞) := by
    rw [← hn, ← Set.encard_coe_eq_coe_finsetCard]
    exact Set.encard_le_encard hsub
  have hcard : n ≤ keys.length :=
    Nat.le_trans (ENat.natCast_le_natCast.mp hle) (List.toFinset_card_le keys)
  exact absurd (Int.ofNat_lt.mp hlt) (Nat.not_lt.mpr hcard)

theorem fits_of_fitsWithin {capacity : Int} {m : κ → Option ν} {keys : List κ}
    {ops : List (MapOp κ ν)} (hkeys : ∀ k, m k ≠ none ↔ k ∈ keys)
    (h : fitsWithin capacity keys ops = true) : Fits capacity m ops := by
  induction ops generalizing m keys with
  | nil => trivial
  | cons op ops ih =>
    cases op with
    | put key value =>
      rw [fitsWithin, Bool.and_eq_true, Bool.or_eq_true, decide_eq_true_eq,
        decide_eq_true_eq] at h
      refine ⟨fun k v hput hnew => ?_, ih (fun k => ?_) h.2⟩
      · cases hput
        have hout : key ∉ keys := fun hmem => (hkeys key).mpr hmem hnew
        exact not_full_of_length_lt (fun k hk => (hkeys k).mp hk) (h.1.resolve_left hout)
      · rw [List.mem_insert_iff, exactStep, Function.update_apply, ← hkeys k]
        by_cases hk : k = key
        · simp [hk]
        · simp [hk]
    | get key => exact ⟨fun _ _ hput => (by cases hput), ih hkeys h⟩
    | clear =>
      refine ⟨fun _ _ hput => (by cases hput), ih (fun k => ?_) h⟩
      simp [exactStep]

/-! ## §2 The lossy map -/

/-- **One operation** on a lossy map of a capacity, with its answer. -/
inductive LossyStep (capacity : Int) (m : κ → Option ν) :
    MapOp κ ν → Option ν → (κ → Option ν) → Prop where
  /-- A `get` changes nothing. -/
  | get (key : κ) : LossyStep capacity m (.get key) (m key) m
  /-- A `put` that evicts nothing. -/
  | put (key : κ) (value : ν) (hcap : capacity ≠ 0) :
      LossyStep capacity m (.put key value) none (Function.update m key (some value))
  /-- A new key is put into a full map: one entry may go. -/
  | evict (key lost : κ) (value : ν) (hcap : capacity ≠ 0) (hnew : m key = none)
      (hfull : Full capacity m) :
      LossyStep capacity m (.put key value) none
        (Function.update (Function.update m lost none) key (some value))
  /-- Without a capacity nothing is stored. -/
  | ignore (key : κ) (value : ν) (hcap : capacity = 0) :
      LossyStep capacity m (.put key value) none m
  | clear : LossyStep capacity m .clear none (fun _ => none)

/-- A sequence of operations, each with its answer. -/
inductive LossyRun (capacity : Int) :
    (κ → Option ν) → List (MapOp κ ν) → List (Option ν) → (κ → Option ν) → Prop where
  | nil (m : κ → Option ν) : LossyRun capacity m [] [] m
  | cons {m m' m'' : κ → Option ν} {op : MapOp κ ν} {r : Option ν} {ops : List (MapOp κ ν)}
      {rs : List (Option ν)} (hstep : LossyStep capacity m op r m')
      (hrest : LossyRun capacity m' ops rs m'') : LossyRun capacity m (op :: ops) (r :: rs) m''

/-! ## §3 What it has not lost is right -/

/-- Every entry of `m` is one of `ref`. -/
def Agrees (m ref : κ → Option ν) : Prop := ∀ k v, m k = some v → ref k = some v

omit [DecidableEq κ] in
theorem Agrees.eq_or_none {m ref : κ → Option ν} (h : Agrees m ref) (key : κ) :
    m key = none ∨ m key = ref key := by
  cases hm : m key with
  | none => exact .inl rfl
  | some v => exact .inr (h key v hm).symm

/-- The same entry is set in both. -/
theorem Agrees.update {m ref : κ → Option ν} (h : Agrees m ref) (key : κ) (value : ν) :
    Agrees (Function.update m key (some value)) (Function.update ref key (some value)) := by
  intro k v hv
  rw [Function.update_apply] at hv ⊢
  by_cases hk : k = key
  · rw [if_pos hk] at hv ⊢
    exact hv
  · rw [if_neg hk] at hv ⊢
    exact h k v hv

/-- Fewer entries agree, too. -/
theorem Agrees.lose {m ref : κ → Option ν} (h : Agrees m ref) (lost : κ) :
    Agrees (Function.update m lost none) ref := by
  intro k v hv
  rw [Function.update_apply] at hv
  split at hv
  · cases hv
  · exact h k v hv

/-- One operation keeps the two maps in agreement. Its answer is that of the exact map, or none. -/
theorem LossyStep.agrees {capacity : Int} {m m' ref : κ → Option ν} {op : MapOp κ ν} {r : Option ν}
    (hstep : LossyStep capacity m op r m') (h : Agrees m ref)
    (hcap : capacity = 0 → m = fun _ => none) :
    Agrees m' (exactStep ref op) ∧ (r = none ∨ r = op.answer ref) ∧
      (capacity = 0 → m' = fun _ => none) := by
  cases hstep with
  | get key => exact ⟨h, h.eq_or_none key, hcap⟩
  | put key value hne => exact ⟨h.update key value, .inl rfl, fun h0 => absurd h0 hne⟩
  | evict key lost value hne _ _ =>
    exact ⟨(h.lose lost).update key value, .inl rfl, fun h0 => absurd h0 hne⟩
  | ignore key value h0 =>
    refine ⟨fun k v hv => ?_, .inl rfl, hcap⟩
    rw [hcap h0] at hv
    cases hv
  | clear => exact ⟨fun k v hv => (by cases hv), .inl rfl, fun _ => rfl⟩

/-- **Every answer is that of the exact map, or a miss.** -/
theorem LossyRun.agrees {capacity : Int} {m m' ref : κ → Option ν} {ops : List (MapOp κ ν)}
    {rs : List (Option ν)} (hrun : LossyRun capacity m ops rs m') (h : Agrees m ref)
    (hcap : capacity = 0 → m = fun _ => none) :
    Agrees m' (exactAll ref ops) ∧
      List.Forall₂ (fun r e => r = none ∨ r = e) rs (exactAnswers ref ops) := by
  induction hrun generalizing ref with
  | nil m => exact ⟨h, .nil⟩
  | cons hstep _ ih =>
    obtain ⟨hagrees, hanswer, hempty⟩ := hstep.agrees h hcap
    obtain ⟨hlast, hanswers⟩ := ih hagrees hempty
    exact ⟨hlast, .cons hanswer hanswers⟩

/-! ## §4 What fits is not lost -/

/-- An operation that does not put a new key into a full map loses nothing. -/
theorem LossyStep.exact_of_room {capacity : Int} {m m' : κ → Option ν} {op : MapOp κ ν}
    {r : Option ν} (hstep : LossyStep capacity m op r m') (hcap : capacity ≠ 0)
    (hroom : ∀ key value, op = .put key value → m key = none → ¬Full capacity m) :
    m' = exactStep m op ∧ r = op.answer m := by
  cases hstep with
  | get key => exact ⟨rfl, rfl⟩
  | put key value _ => exact ⟨rfl, rfl⟩
  | evict key lost value _ hnew hfull => exact absurd hfull (hroom key value rfl hnew)
  | ignore key value h0 => exact absurd h0 hcap
  | clear => exact ⟨rfl, rfl⟩

/-- **While the entries fit, the lossy map is the exact map.** -/
theorem LossyRun.exact_of_fits {capacity : Int} {m m' : κ → Option ν} {ops : List (MapOp κ ν)}
    {rs : List (Option ν)} (hrun : LossyRun capacity m ops rs m') (hcap : capacity ≠ 0)
    (hfits : Fits capacity m ops) : m' = exactAll m ops ∧ rs = exactAnswers m ops := by
  induction hrun with
  | nil m => exact ⟨rfl, rfl⟩
  | cons hstep _ ih =>
    obtain ⟨hroom, hrest⟩ := hfits
    obtain ⟨rfl, rfl⟩ := hstep.exact_of_room hcap hroom
    obtain ⟨hmap, hanswers⟩ := ih hrest
    exact ⟨hmap, by rw [hanswers, exactAnswers]⟩

end RainWebServer.Lib
