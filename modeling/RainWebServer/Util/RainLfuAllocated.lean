import RainWebServer.Util.RainLfuReference

/-!
# RainLfu: What Holds in Every Run

The invariants of `RainLfu` that hold whatever `minFreq_` says, and so after any operations at all:
only nodes that have been made are in `nodeMap_` and the lists, their frequencies are positive,
and `minFreq_` is.

## Main result

`allocated_of_applyAll` : every state that a run reaches is `Allocated`
-/

namespace RainWebServer.Util

namespace RainLfu

variable {Key Value : Type}

/-! ## §1 The lists -/

theorem exists_setLists_of_remove {s t : RainLfu Key Value} {x : NodePtr}
    (h : s.removeFromFreqList x = some t) : ∃ lists, t = s.setLists lists := by
  obtain ⟨l, -, ht⟩ := Option.bind_eq_some_iff.mp h
  exact ⟨_, (Option.some.inj ht).symm⟩

theorem exists_setLists_of_add {s t : RainLfu Key Value} {x : NodePtr}
    (h : s.addToFreqList x = some t) : ∃ lists, t = s.setLists lists := by
  obtain ⟨l, -, ht⟩ := Option.bind_eq_some_iff.mp h
  exact ⟨_, (Option.some.inj ht).symm⟩

/-- `removeFromFreqList` puts no node into a list. -/
theorem mem_nodesAt_of_remove {s t : RainLfu Key Value} {x y : NodePtr} {f : Int}
    (h : s.removeFromFreqList x = some t) (hy : y ∈ t.nodesAt f) : y ∈ s.nodesAt f := by
  obtain ⟨l, hl, ht⟩ := Option.bind_eq_some_iff.mp h
  cases ht
  simp only [nodesAt, listAt_setLists_insert] at hy ⊢
  split at hy
  · rename_i hf
    rw [hf, hl]
    exact List.mem_of_mem_erase hy
  · exact hy

/-- `addToFreqList` puts its node into the list of its frequency, and no other. -/
theorem mem_nodesAt_of_add {s t : RainLfu Key Value} {x y : NodePtr} {f : Int}
    (h : s.addToFreqList x = some t) (hy : y ∈ t.nodesAt f) :
    y ∈ s.nodesAt f ∨ y = x ∧ f = (s.heap x).freq := by
  obtain ⟨l, hl, ht⟩ := Option.bind_eq_some_iff.mp h
  cases ht
  simp only [nodesAt, listAt_setLists_insert] at hy ⊢
  split at hy
  · rename_i hf
    rw [hf]
    simp only [Option.map_some, Option.getD_some, FreqList.addNode, List.mem_append,
      List.mem_singleton] at hy
    rcases hy with hy | hy
    · -- the list was there, or has just been made and is empty
      left
      split at hl
      · rw [listAt, hl]
        exact hy
      · rw [AList.lookup_insert] at hl
        cases hl
        cases hy
    · exact .inr ⟨hy, rfl⟩
  · rename_i hf
    left
    split at hy
    · exact hy
    · rw [AList.lookup_insert_ne hf] at hy
      exact hy

/-! ## §2 The two halves of `putInternal` -/

section Keyed

variable [DecidableEq Key]

/-- The start of `putInternal`. -/
def makeRoom (s : RainLfu Key Value) (env : Env Key) : Option (RainLfu Key Value) :=
  if (s.size : Int) = s.capacity_ then s.kickOut env else some s

/-- The rest of `putInternal`. -/
def insertNew (s : RainLfu Key Value) (env : Env Key) (key : Key) (value : Value) :
    Option (RainLfu Key Value) := do
  let node := s.fresh
  let s ← (s.makeNode key value).addToFreqList node
  let s ← s.addFreqNum env
  some (s.setMinFreq (min s.minFreq_ 1))

theorem putInternal_eq (s : RainLfu Key Value) (env : Env Key) (key : Key) (value : Value) :
    s.putInternal env key value = (s.makeRoom env).bind (insertNew · env key value) := by
  unfold putInternal makeRoom
  split
  · rfl
  · rfl

/-- Erasing some key does not bring back another one. -/
theorem lookup_erase_eq_none {m : AList (fun _ : Key => NodePtr)} {key : Key}
    (h : m.lookup key = none) (erased : Key) : (m.erase erased).lookup key = none := by
  by_cases hk : key = erased
  · rw [hk]
    exact AList.lookup_erase _ _
  · rw [AList.lookup_erase_ne hk]
    exact h

end Keyed

/-! ## §3 The invariant -/

variable [Inhabited Key] [Inhabited Value]

/-- Only nodes that have been made are in use. -/
structure Allocated (s : RainLfu Key Value) : Prop where
  mapped : ∀ p, s.Resident p → p < s.fresh
  listed : ∀ f p, p ∈ s.nodesAt f → p < s.fresh ∧ 1 ≤ f
  freq_pos : ∀ p, p < s.fresh → 1 ≤ (s.heap p).freq
  unwritten : ∀ p, s.fresh ≤ p → s.heap p = default
  minFreq_pos : 1 ≤ s.minFreq_

namespace Allocated

variable {s t : RainLfu Key Value}

theorem setMinFreq (h : s.Allocated) {f : Int} (hf : 1 ≤ f) : (s.setMinFreq f).Allocated :=
  ⟨h.mapped, h.listed, h.freq_pos, h.unwritten, hf⟩

theorem setTotal (h : s.Allocated) (n : Int) : (s.setTotal n).Allocated :=
  ⟨h.mapped, h.listed, h.freq_pos, h.unwritten, h.minFreq_pos⟩

/-- A node that has been made is overwritten. -/
theorem update {heap : NodePtr → Node Key Value} (h : s.Allocated) {x : NodePtr}
    {n : Node Key Value}
    (hheap : heap = Function.update s.heap x n) (hx : x < s.fresh) (hn : 1 ≤ n.freq) :
    Allocated { s with heap := heap } := by
  subst hheap
  refine ⟨h.mapped, h.listed, fun p hp => ?_, fun p hp => ?_, h.minFreq_pos⟩
  · by_cases hpx : p = x
    · rw [hpx]
      simpa using hn
    · simpa [hpx] using h.freq_pos p hp
  · have hpx : p ≠ x := Nat.ne_of_gt (Nat.lt_of_lt_of_le hx hp)
    simpa [hpx] using h.unwritten p hp

theorem setFreq (h : s.Allocated) {x : NodePtr} (hx : x < s.fresh) {f : Int} (hf : 1 ≤ f) :
    (s.setFreq x f).Allocated := h.update rfl hx hf

theorem setValue (h : s.Allocated) {x : NodePtr} (hx : x < s.fresh) (v : Value) :
    (s.setValue x v).Allocated := h.update rfl hx (h.freq_pos x hx)

theorem removeFromFreqList (h : s.Allocated) {x : NodePtr} (ht : s.removeFromFreqList x = some t) :
    t.Allocated := by
  have hlisted := fun f p (hp : p ∈ t.nodesAt f) => h.listed f p (mem_nodesAt_of_remove ht hp)
  obtain ⟨lists, rfl⟩ := exists_setLists_of_remove ht
  exact ⟨h.mapped, hlisted, h.freq_pos, h.unwritten, h.minFreq_pos⟩

theorem addToFreqList (h : s.Allocated) {x : NodePtr} (hx : x < s.fresh)
    (ht : s.addToFreqList x = some t) : t.Allocated := by
  have hlisted : ∀ f p, p ∈ t.nodesAt f → p < s.fresh ∧ 1 ≤ f := by
    intro f p hp
    rcases mem_nodesAt_of_add ht hp with hp | ⟨rfl, rfl⟩
    · exact h.listed f p hp
    · exact ⟨hx, h.freq_pos p hx⟩
  obtain ⟨lists, rfl⟩ := exists_setLists_of_add ht
  exact ⟨h.mapped, hlisted, h.freq_pos, h.unwritten, h.minFreq_pos⟩

theorem ageNode (h : s.Allocated) {x : NodePtr} (hx : x < s.fresh) (ht : s.ageNode x = some t) :
    t.Allocated ∧ t.fresh = s.fresh ∧ t.nodeMap_ = s.nodeMap_ := by
  obtain ⟨u, hu, hadd⟩ := Option.bind_eq_some_iff.mp ht
  have hlinked := h.removeFromFreqList hu
  obtain ⟨lists, rfl⟩ := exists_setLists_of_remove hu
  have hdone := (hlinked.setFreq (by exact hx) (agedFreq_pos _ _)).addToFreqList (by exact hx) hadd
  obtain ⟨lists', rfl⟩ := exists_setLists_of_add hadd
  exact ⟨hdone, rfl, rfl⟩

theorem foldlM_ageNode {L : List NodePtr} (h : s.Allocated) (hL : ∀ x ∈ L, x < s.fresh)
    (ht : L.foldlM RainLfu.ageNode s = some t) :
    t.Allocated ∧ t.fresh = s.fresh ∧ t.nodeMap_ = s.nodeMap_ := by
  induction L generalizing s with
  | nil =>
    cases ht
    exact ⟨h, rfl, rfl⟩
  | cons x L ih =>
    rw [List.foldlM_cons] at ht
    obtain ⟨u, hu, hrest⟩ := Option.bind_eq_some_iff.mp ht
    obtain ⟨hu', hfresh, hmap⟩ := h.ageNode (hL x (List.mem_cons_self ..)) hu
    obtain ⟨hdone, hfresh', hmap'⟩ := ih hu'
      (fun y hy => hfresh ▸ hL y (List.mem_cons_of_mem _ hy)) hrest
    exact ⟨hdone, hfresh'.trans hfresh, hmap'.trans hmap⟩

/-- The least frequency that `updateMinFreq` finds is that of a list. -/
theorem updateMinFreq (h : s.Allocated) : s.updateMinFreq.Allocated := by
  refine h.setMinFreq ?_
  obtain ⟨-, -, hatt⟩ := leastListed_spec s.freqToFreqList_.entries int8Max
  split
  · exact le_refl 1
  · rename_i hcap
    obtain ⟨l, hmem, hl⟩ := hatt.resolve_left hcap
    obtain ⟨p, hp⟩ := List.exists_mem_of_ne_nil _ hl
    rw [mem_entries_iff_listAt] at hmem
    exact (h.listed _ p (by simpa [nodesAt, hmem] using hp)).2

theorem addFreqNum (h : s.Allocated) {env : Env Key} (ht : s.addFreqNum env = some t) :
    t.Allocated ∧ t.fresh = s.fresh := by
  have htotal := h.setTotal (s.curTotalNum_ + 1)
  unfold RainLfu.addFreqNum at ht
  simp only at ht
  split at ht
  · unfold RainLfu.handleOverMaxAverageNum at ht
    split at ht
    · cases ht
      exact ⟨htotal, rfl⟩
    · obtain ⟨u, hu, hmin⟩ := Option.bind_eq_some_iff.mp ht
      cases hmin
      obtain ⟨hdone, hfresh, -⟩ := htotal.foldlM_ageNode
        (fun x hx => h.mapped x ((env.order_perm _).mem_iff.mp hx)) hu
      exact ⟨hdone.updateMinFreq, hfresh⟩
  · cases ht
    exact ⟨htotal, rfl⟩

theorem getInternal (h : s.Allocated) {x : NodePtr} (hx : x < s.fresh) {env : Env Key}
    {v : Value} (ht : s.getInternal env x = some (v, t)) : t.Allocated := by
  obtain ⟨s₁, hs₁, ht⟩ := Option.bind_eq_some_iff.mp ht
  have h₁ := h.removeFromFreqList hs₁
  obtain ⟨lists, rfl⟩ := exists_setLists_of_remove hs₁
  obtain ⟨s₂, hs₂, ht⟩ := Option.bind_eq_some_iff.mp ht
  have hfreq : 1 ≤ ((s.setLists lists).heap x).freq + 1 := by
    have hpos := h.freq_pos x hx
    exact Int.le_add_one hpos
  have h₂ := (h₁.setFreq (by exact hx) hfreq).addToFreqList (by exact hx) hs₂
  obtain ⟨moved, -, ht⟩ := Option.bind_eq_some_iff.mp ht
  obtain ⟨s₄, hs₄, ht⟩ := Option.bind_eq_some_iff.mp ht
  cases ht
  refine (Allocated.addFreqNum ?_ hs₄).1
  split
  · exact h₂.setMinFreq (Int.le_add_one h₂.minFreq_pos)
  · exact h₂

section Keyed

variable [DecidableEq Key]

/-- Fewer keys. -/
theorem eraseKey (h : s.Allocated) (key : Key) : (s.eraseKey key).Allocated := by
  refine ⟨fun p hp => ?_, h.listed, h.freq_pos, h.unwritten, h.minFreq_pos⟩
  obtain ⟨k, hk⟩ := (resident_iff _ p).mp hp
  refine h.mapped p ((resident_iff s p).mpr ⟨k, ?_⟩)
  by_cases hkey : k = key
  · rw [hkey, eraseKey_nodeMap_, AList.lookup_erase] at hk
    cases hk
  · rwa [eraseKey_nodeMap_, AList.lookup_erase_ne hkey] at hk

theorem kickOut (h : s.Allocated) {env : Env Key} (ht : s.kickOut env = some t) :
    t.Allocated := by
  obtain ⟨l, -, hkick⟩ := Option.bind_eq_some_iff.mp ht
  split at hkick
  · obtain ⟨u, hu, hdone⟩ := Option.bind_eq_some_iff.mp hkick
    cases hdone
    exact ((h.removeFromFreqList hu).eraseKey _).setTotal _
  · obtain ⟨l₁, -, hdone⟩ := Option.bind_eq_some_iff.mp hkick
    cases hdone
    exact (h.eraseKey _).setTotal _

theorem makeNode (h : s.Allocated) (key : Key) (value : Value) :
    (s.makeNode key value).Allocated := by
  have hle : ∀ {p : NodePtr}, p < s.fresh → p < s.fresh + 1 := fun hp => Nat.lt_succ_of_lt hp
  refine ⟨fun p hp => ?_, fun f p hp => ⟨hle (h.listed f p hp).1, (h.listed f p hp).2⟩,
    fun p hp => ?_, fun p hp => ?_, h.minFreq_pos⟩
  · obtain ⟨k, hk⟩ := (resident_iff _ p).mp hp
    by_cases hkey : k = key
    · rw [hkey, makeNode_nodeMap_, AList.lookup_insert] at hk
      cases hk
      exact Nat.lt_succ_self _
    · rw [makeNode_nodeMap_, AList.lookup_insert_ne hkey] at hk
      exact hle (h.mapped p ((resident_iff s p).mpr ⟨k, hk⟩))
  · by_cases hpf : p = s.fresh
    · simp [hpf]
    · have hlt : p < s.fresh := Nat.lt_of_le_of_ne (Nat.le_of_lt_succ hp) hpf
      simpa [hpf] using h.freq_pos p hlt
  · have hpf : p ≠ s.fresh := Nat.ne_of_gt (Nat.lt_of_succ_le hp)
    simpa [hpf] using h.unwritten p (Nat.le_of_succ_le hp)

theorem putInternal (h : s.Allocated) {env : Env Key} {key : Key} {value : Value}
    (ht : s.putInternal env key value = some t) : t.Allocated := by
  rw [putInternal_eq] at ht
  obtain ⟨s₁, hs₁, ht⟩ := Option.bind_eq_some_iff.mp ht
  have h₁ : s₁.Allocated := by
    unfold makeRoom at hs₁
    split at hs₁
    · exact h.kickOut hs₁
    · cases hs₁
      exact h
  obtain ⟨s₂, hs₂, ht⟩ := Option.bind_eq_some_iff.mp ht
  have h₂ := (h₁.makeNode key value).addToFreqList (Nat.lt_succ_self _) hs₂
  obtain ⟨s₃, hs₃, ht⟩ := Option.bind_eq_some_iff.mp ht
  cases ht
  have h₃ := (h₂.addFreqNum hs₃).1
  exact h₃.setMinFreq (le_min h₃.minFreq_pos (le_refl 1))

theorem apply (h : s.Allocated) {env : Env Key} {op : Op Key Value}
    (ht : s.apply env op = some t) : t.Allocated := by
  have hlookup : ∀ {key p}, s.nodeMap_.lookup key = some p → p < s.fresh :=
    fun hp => h.mapped _ ((resident_iff s _).mpr ⟨_, hp⟩)
  cases op with
  | put key value =>
    simp only [RainLfu.apply, RainLfu.put] at ht
    split at ht
    · cases ht
      exact h
    · split at ht
      · rename_i p hp
        obtain ⟨⟨v, u⟩, hu, rfl⟩ := Option.map_eq_some_iff.mp ht
        exact (h.setValue (hlookup hp) value).getInternal (by exact hlookup hp) hu
      · exact h.putInternal ht
  | get key =>
    simp only [RainLfu.apply, RainLfu.get] at ht
    split at ht
    · rename_i p hp
      rw [Option.map_map] at ht
      obtain ⟨⟨v, u⟩, hu, rfl⟩ := Option.map_eq_some_iff.mp ht
      exact h.getInternal (hlookup hp) hu
    · cases ht
      exact h
  | purge =>
    cases ht
    refine ⟨fun p hp => ?_, fun f p hp => ?_, h.freq_pos, h.unwritten, h.minFreq_pos⟩
    · exact absurd hp (not_resident_of_empty rfl p)
    · cases hp

end Keyed

end Allocated

theorem allocated_new (capacity maxAverageNum : Int) :
    (new capacity maxAverageNum : RainLfu Key Value).Allocated :=
  ⟨fun p hp => absurd hp (not_resident_of_empty rfl p), fun f p hp => (by cases hp),
    fun p hp => absurd hp (Nat.not_lt_zero p), fun _ _ => rfl, show (1 : Int) ≤ int8Max by decide⟩

/-- Every state that a run reaches, right or not. -/
theorem allocated_of_applyAll [DecidableEq Key] {s t : RainLfu Key Value} (h : s.Allocated)
    {ops : List (Op Key Value × Env Key)} (ht : s.applyAll ops = some t) : t.Allocated := by
  induction ops generalizing s with
  | nil =>
    cases ht
    exact h
  | cons head rest ih =>
    obtain ⟨u, hu, hrest⟩ := Option.bind_eq_some_iff.mp ht
    exact ih (h.apply hu) hrest

end RainLfu

end RainWebServer.Util
