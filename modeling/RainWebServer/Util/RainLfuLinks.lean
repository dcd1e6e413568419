import RainWebServer.Util.RainLfu
import Mathlib.Data.List.Nodup
import Mathlib.Data.List.Perm.Basic

/-!
# RainLfu: the Links between `nodeMap_` and the Frequency Lists

`Linked` says that the two maps describe the same set of nodes: a resident node is in
the list of its own frequency, once, and no list holds anything else. Every operation is
made of three moves that keep it, and each has one lemma here:

- `relink` : a node leaves its list, changes its frequency and joins the list of the
  new one (a hit, and one iteration of the aging loop)
- `makeNode_linked` : a new node joins the list of frequency 1
- `evict_linked` : a node leaves its list and `nodeMap_`
-/

namespace RainWebServer.Util

namespace RainLfu

variable {Key Value : Type}

/-! ## §1 Residents and lists -/

/-- The nodes of `freqToFreqList_[f]`, none if there is no such list. -/
def nodesAt (s : RainLfu Key Value) (f : Int) : List NodePtr :=
  ((s.listAt f).map FreqList.nodes).getD []

/-- The node is in `nodeMap_`. -/
def Resident (s : RainLfu Key Value) (p : NodePtr) : Prop := p ∈ s.nodePtrs

instance (s : RainLfu Key Value) (p : NodePtr) : Decidable (s.Resident p) :=
  inferInstanceAs (Decidable (p ∈ s.nodePtrs))

theorem size_eq_length_nodePtrs (s : RainLfu Key Value) : s.size = s.nodePtrs.length := by
  simp [size, nodePtrs]

theorem exists_resident_of_size_ne_zero {s : RainLfu Key Value} (h : s.size ≠ 0) :
    ∃ p, s.Resident p := by
  rw [size_eq_length_nodePtrs] at h
  exact List.exists_mem_of_ne_nil _ (fun hnil => h (by simp [hnil]))

theorem listAt_of_mem_nodesAt {s : RainLfu Key Value} {f : Int} {p : NodePtr}
    (h : p ∈ s.nodesAt f) : ∃ l, s.listAt f = some l ∧ s.nodesAt f = l.nodes := by
  unfold nodesAt at h ⊢
  cases hl : s.listAt f with
  | none => simp [hl] at h
  | some l => exact ⟨l, rfl, rfl⟩

/-! ## §2 Single updates of the frequency lists -/

theorem listAt_setLists (s : RainLfu Key Value) (lists : AList (fun _ : Int => Option FreqList))
    (f : Int) : (s.setLists lists).listAt f = (lists.lookup f).join := rfl

theorem listAt_setLists_insert (s : RainLfu Key Value) (f g : Int) (l : FreqList)
    (lists : AList (fun _ : Int => Option FreqList)) :
    (s.setLists (lists.insert f (some l))).listAt g =
      if g = f then some l else (lists.lookup g).join := by
  rw [listAt_setLists]
  by_cases hg : g = f
  · subst hg
    simp
  · simp [hg, AList.lookup_insert_ne hg]

/-- No list pointer in `freqToFreqList_` is null. -/
def NoNullList (s : RainLfu Key Value) : Prop :=
  ∀ f, f ∈ s.freqToFreqList_ → (s.listAt f).isSome

/-- Overwriting one list leaves no null pointer behind. -/
theorem NoNullList.insert {s : RainLfu Key Value} (h : s.NoNullList) (f : Int) (l : FreqList) :
    (s.setLists (s.freqToFreqList_.insert f (some l))).NoNullList := by
  intro g hg
  rw [listAt_setLists_insert]
  split
  · rfl
  · rename_i hne
    rw [setLists_freqToFreqList_, AList.mem_insert] at hg
    exact h g (hg.resolve_left hne)

/-- A list of `s` is still there in `t`. -/
def ListsKept (s t : RainLfu Key Value) : Prop :=
  ∀ f, (s.listAt f).isSome → (t.listAt f).isSome

theorem ListsKept.trans {s t u : RainLfu Key Value} (h₁ : s.ListsKept t) (h₂ : t.ListsKept u) :
    s.ListsKept u := fun f hf => h₂ f (h₁ f hf)

theorem ListsKept.insert {s : RainLfu Key Value} (f : Int) (l : FreqList) :
    s.ListsKept (s.setLists (s.freqToFreqList_.insert f (some l))) := by
  intro g hg
  rw [listAt_setLists_insert]
  split
  · rfl
  · exact hg

/-- Removing a node from the list that holds it. -/
theorem removeFromFreqList_spec {s : RainLfu Key Value} {p : NodePtr} (h : s.NoNullList)
    (hp : p ∈ s.nodesAt (s.heap p).freq) :
    ∃ lists, s.removeFromFreqList p = some (s.setLists lists) ∧
      (s.setLists lists).NoNullList ∧ s.ListsKept (s.setLists lists) ∧
      ∀ f, (s.setLists lists).nodesAt f =
        if f = (s.heap p).freq then (s.nodesAt f).erase p else s.nodesAt f := by
  obtain ⟨l, hl, hnodes⟩ := listAt_of_mem_nodesAt hp
  refine ⟨_, by simp only [removeFromFreqList, hl]; rfl, h.insert _ _, .insert _ _,
    fun f => ?_⟩
  simp only [nodesAt, listAt_setLists_insert]
  split
  · rename_i hf
    simp [hf, hl, FreqList.removeNode]
  · rfl

/-- `addToFreqList` appends the node to the list of its frequency. -/
theorem addToFreqList_spec {s : RainLfu Key Value} (p : NodePtr) (h : s.NoNullList) :
    ∃ lists, s.addToFreqList p = some (s.setLists lists) ∧
      (s.setLists lists).NoNullList ∧ s.ListsKept (s.setLists lists) ∧
      ∀ f, (s.setLists lists).nodesAt f =
        if f = (s.heap p).freq then s.nodesAt f ++ [p] else s.nodesAt f := by
  by_cases hmem : (s.heap p).freq ∈ s.freqToFreqList_
  · obtain ⟨l, hl⟩ := Option.isSome_iff_exists.mp (h _ hmem)
    have hlook : (s.freqToFreqList_.lookup (s.heap p).freq).join = some l := hl
    refine ⟨_, by simp only [addToFreqList, if_pos hmem, hlook]; rfl, h.insert _ _, .insert _ _,
      fun f => ?_⟩
    simp only [nodesAt, listAt_setLists_insert]
    split
    · rename_i hf
      simp [hf, hl, FreqList.addNode]
    · rfl
  · -- The list is created first, empty.
    have hnone : s.listAt (s.heap p).freq = none := by
      simp [listAt, AList.lookup_eq_none.mpr hmem]
    refine ⟨_, by simp only [addToFreqList, if_neg hmem, AList.lookup_insert]; rfl,
      (h.insert _ (FreqList.new _)).insert _ _,
      (ListsKept.insert _ (FreqList.new _)).trans (.insert _ _), fun f => ?_⟩
    simp only [nodesAt, listAt_setLists_insert]
    split
    · rename_i hf
      simp [hf, hnone, FreqList.addNode, FreqList.new]
    · rename_i hf
      rw [setLists_freqToFreqList_, AList.lookup_insert_ne hf]
      rfl

/-! ## §3 The linking invariant -/

section Keyed

variable [DecidableEq Key]

/-- `nodeMap_` and the frequency lists hold the same nodes. -/
structure Linked (s : RainLfu Key Value) : Prop where
  /-- A node is entered under its own key. -/
  keyed : ∀ k p, s.nodeMap_.lookup k = some p → (s.heap p).key = k
  /-- Addresses are handed out once. -/
  older : ∀ p, s.Resident p → p < s.fresh
  /-- A list holds exactly the residents of its frequency. -/
  mem_nodesAt : ∀ f p, p ∈ s.nodesAt f ↔ s.Resident p ∧ (s.heap p).freq = f
  nodup : ∀ f, (s.nodesAt f).Nodup
  nonnull : s.NoNullList
  freq_pos : ∀ p, s.Resident p → 1 ≤ (s.heap p).freq

omit [DecidableEq Key] in
theorem not_resident_of_empty {s : RainLfu Key Value} (hmap : s.nodeMap_ = ∅) (p : NodePtr) :
    ¬s.Resident p := by
  rw [Resident, nodePtrs, hmap]
  exact List.not_mem_nil

/-- A cache without nodes and lists. -/
theorem linked_of_empty {s : RainLfu Key Value} (hmap : s.nodeMap_ = ∅)
    (hlists : s.freqToFreqList_ = ∅) : s.Linked := by
  have hres := not_resident_of_empty hmap
  have hnodes : ∀ f, s.nodesAt f = [] := by
    intro f
    simp [nodesAt, listAt, hlists]
  refine ⟨?_, fun p hp => absurd hp (hres p), fun f p => ?_, fun f => ?_, ?_,
    fun p hp => absurd hp (hres p)⟩
  · intro k p hk
    rw [hmap] at hk
    cases hk
  · simp only [hres p, false_and, iff_false, hnodes f]
    exact List.not_mem_nil
  · rw [hnodes f]
    exact List.nodup_nil
  · intro f hf
    rw [hlists] at hf
    simp at hf

theorem resident_iff (s : RainLfu Key Value) (p : NodePtr) :
    s.Resident p ↔ ∃ k, s.nodeMap_.lookup k = some p := by
  simp only [Resident, nodePtrs, List.mem_map, Sigma.exists]
  constructor
  · rintro ⟨k, q, hmem, rfl⟩
    exact ⟨k, AList.mem_lookup_iff.mpr hmem⟩
  · rintro ⟨k, hk⟩
    exact ⟨k, p, AList.mem_lookup_iff.mp hk, rfl⟩

theorem Linked.mem_own {s : RainLfu Key Value} (h : s.Linked) {p : NodePtr}
    (hp : s.Resident p) : p ∈ s.nodesAt (s.heap p).freq :=
  (h.mem_nodesAt _ _).mpr ⟨hp, rfl⟩

/-- Only its own list holds a node. -/
theorem Linked.erase_other {s : RainLfu Key Value} (h : s.Linked) {p : NodePtr} {f : Int}
    (hf : (s.heap p).freq ≠ f) : (s.nodesAt f).erase p = s.nodesAt f :=
  List.erase_of_not_mem (fun hmem => hf ((h.mem_nodesAt f p).mp hmem).2)

/-- A node has one key, so it is in `nodeMap_` once. -/
theorem Linked.nodup_nodePtrs {s : RainLfu Key Value} (h : s.Linked) : s.nodePtrs.Nodup := by
  have hkeys : s.nodeMap_.keys = s.nodePtrs.map (fun p => (s.heap p).key) := by
    simp only [AList.keys, List.keys, nodePtrs, List.map_map]
    apply List.map_congr_left
    rintro ⟨k, p⟩ hmem
    exact (h.keyed k p (AList.mem_lookup_iff.mpr hmem)).symm
  have hnodup : (s.nodePtrs.map (fun p => (s.heap p).key)).Nodup := by
    rw [← hkeys]
    exact s.nodeMap_.keys_nodup
  exact hnodup.of_map

/-- `removeFromFreqList` takes a resident out of all lists. -/
theorem Linked.remove {s : RainLfu Key Value} (h : s.Linked) {p : NodePtr} (hp : s.Resident p) :
    ∃ lists, s.removeFromFreqList p = some (s.setLists lists) ∧
      (s.setLists lists).NoNullList ∧ s.ListsKept (s.setLists lists) ∧
      ∀ f, (s.setLists lists).nodesAt f = (s.nodesAt f).erase p := by
  obtain ⟨lists, hrem, hnonnull, hkept, hnodes⟩ :=
    removeFromFreqList_spec h.nonnull (h.mem_own hp)
  refine ⟨lists, hrem, hnonnull, hkept, fun f => ?_⟩
  rw [hnodes f]
  split
  · rfl
  · rename_i hf
    exact (h.erase_other (Ne.symm hf)).symm

/-! ## §4 Moving a node to another frequency -/

/-- `t` is `s` with the resident `p` moved to frequency `f`. -/
structure Relinked (s : RainLfu Key Value) (p : NodePtr) (f : Int) (t : RainLfu Key Value) :
    Prop where
  eq_rest : t = (s.setFreq p f).setLists t.freqToFreqList_
  kept : s.ListsKept t
  nodesAt_eq : ∀ g, t.nodesAt g =
    if g = f then (s.nodesAt g).erase p ++ [p] else (s.nodesAt g).erase p

namespace Relinked

variable {s t : RainLfu Key Value} {p : NodePtr} {f : Int}

omit [DecidableEq Key] in
theorem nodeMap_eq (h : Relinked s p f t) : t.nodeMap_ = s.nodeMap_ := by
  rw [h.eq_rest]; rfl

omit [DecidableEq Key] in
theorem heap_eq (h : Relinked s p f t) :
    t.heap = Function.update s.heap p { s.heap p with freq := f } := by
  rw [h.eq_rest]; rfl

omit [DecidableEq Key] in
theorem resident_iff (h : Relinked s p f t) (q : NodePtr) : t.Resident q ↔ s.Resident q := by
  simp [Resident, nodePtrs, h.nodeMap_eq]

omit [DecidableEq Key] in
theorem size_eq (h : Relinked s p f t) : t.size = s.size := by
  simp [size, h.nodeMap_eq]

omit [DecidableEq Key] in
theorem capacity_eq (h : Relinked s p f t) : t.capacity_ = s.capacity_ := by
  rw [h.eq_rest]
  rfl

omit [DecidableEq Key] in
theorem maxAverageNum_eq (h : Relinked s p f t) : t.maxAverageNum_ = s.maxAverageNum_ := by
  rw [h.eq_rest]
  rfl

omit [DecidableEq Key] in
theorem total_eq (h : Relinked s p f t) : t.curTotalNum_ = s.curTotalNum_ := by
  rw [h.eq_rest]
  rfl

omit [DecidableEq Key] in
theorem freq_self (h : Relinked s p f t) : (t.heap p).freq = f := by
  simp [h.heap_eq]

omit [DecidableEq Key] in
theorem heap_other (h : Relinked s p f t) {q : NodePtr} (hq : q ≠ p) : t.heap q = s.heap q := by
  simp [h.heap_eq, hq]

omit [DecidableEq Key] in
/-- The key of a node never changes. -/
theorem key_eq (h : Relinked s p f t) (q : NodePtr) : (t.heap q).key = (s.heap q).key := by
  by_cases hq : q = p
  · subst hq
    simp [h.heap_eq]
  · rw [h.heap_other hq]

/-- The moved node is in the new list and in no other, so the links stay right. -/
theorem linked (hrel : Relinked s p f t) (h : s.Linked) (hp : s.Resident p) (hf : 1 ≤ f)
    (hnonnull : t.NoNullList) : t.Linked := by
  -- a list holds a node once, so erasing it takes it out for good
  have hnot : ∀ g, p ∉ (s.nodesAt g).erase p := fun g => (h.nodup g).not_mem_erase
  constructor
  case keyed =>
    intro k q hq
    rw [hrel.nodeMap_eq] at hq
    rw [hrel.key_eq]
    exact h.keyed k q hq
  case older =>
    intro q hq
    have hfresh : t.fresh = s.fresh := by rw [hrel.eq_rest]; rfl
    rw [hfresh]
    exact h.older q ((hrel.resident_iff q).mp hq)
  case mem_nodesAt =>
    intro g q
    rw [hrel.nodesAt_eq, hrel.resident_iff]
    by_cases hq : q = p
    · -- the moved node: in the list of `f`, and in no other
      subst hq
      rw [hrel.freq_self]
      by_cases hg : g = f
      · simp [hg, hp]
      · simp [hg, hnot g, Ne.symm hg]
    · rw [hrel.heap_other hq, ← h.mem_nodesAt g q]
      by_cases hg : g = f <;> simp [hg, hq, List.mem_erase_of_ne hq]
  case nodup =>
    intro g
    rw [hrel.nodesAt_eq]
    split
    · exact List.Nodup.append ((h.nodup g).erase p) (List.nodup_singleton p)
        (by simpa using hnot g)
    · exact (h.nodup g).erase p
  case nonnull => exact hnonnull
  case freq_pos =>
    intro q hq
    by_cases hqp : q = p
    · subst hqp
      rw [hrel.freq_self]
      exact hf
    · rw [hrel.heap_other hqp]
      exact h.freq_pos q ((hrel.resident_iff q).mp hq)

end Relinked

/-- A node that leaves its list and joins the list of another frequency. -/
theorem relink {s : RainLfu Key Value} (h : s.Linked) {p : NodePtr} (hp : s.Resident p)
    {f : Int} (hf : 1 ≤ f) :
    ∃ lists t, s.removeFromFreqList p = some (s.setLists lists) ∧
      ((s.setLists lists).setFreq p f).addToFreqList p = some t ∧ Relinked s p f t ∧ t.Linked := by
  obtain ⟨lists, hrem, hnonnull, hkept, hnodes⟩ := h.remove hp
  obtain ⟨lists', hadd, hnonnull', hkept', hnodes'⟩ :=
    addToFreqList_spec (s := (s.setLists lists).setFreq p f) p hnonnull
  have hrel : Relinked s p f (((s.setLists lists).setFreq p f).setLists lists') := by
    refine ⟨rfl, hkept.trans hkept', fun g => ?_⟩
    have hkeep : ((s.setLists lists).setFreq p f).nodesAt g = (s.nodesAt g).erase p := hnodes g
    rw [hnodes' g, hkeep]
    simp
  exact ⟨lists, _, hrem, hadd, hrel, hrel.linked h hp hf hnonnull'⟩

/-! ## §5 New nodes and evictions -/

/-- The node of a new key comes first in the map. -/
theorem nodePtrs_makeNode {s : RainLfu Key Value} {key : Key} (value : Value)
    (hkey : s.nodeMap_.lookup key = none) :
    (s.makeNode key value).nodePtrs = s.fresh :: s.nodePtrs := by
  have hentries : (s.nodeMap_.insert key s.fresh).entries =
      ⟨key, s.fresh⟩ :: s.nodeMap_.entries :=
    AList.entries_insert_of_notMem (AList.lookup_eq_none.mp hkey)
  simp only [nodePtrs, makeNode_nodeMap_, hentries, List.map_cons]

/-- The residents after a node for a new key has been made. -/
theorem resident_makeNode {s : RainLfu Key Value} {key : Key} (value : Value)
    (hkey : s.nodeMap_.lookup key = none) (p : NodePtr) :
    (s.makeNode key value).Resident p ↔ p = s.fresh ∨ s.Resident p := by
  rw [Resident, nodePtrs_makeNode value hkey, List.mem_cons, Resident]

theorem size_makeNode {s : RainLfu Key Value} {key : Key} (value : Value)
    (hkey : s.nodeMap_.lookup key = none) : (s.makeNode key value).size = s.size + 1 := by
  rw [size_eq_length_nodePtrs, nodePtrs_makeNode value hkey, List.length_cons,
    size_eq_length_nodePtrs]

/-- A new node joins the list of frequency 1. -/
theorem makeNode_linked {s : RainLfu Key Value} (h : s.Linked) {key : Key} (value : Value)
    (hkey : s.nodeMap_.lookup key = none) :
    ∃ lists, (s.makeNode key value).addToFreqList s.fresh =
        some ((s.makeNode key value).setLists lists) ∧
      ((s.makeNode key value).setLists lists).Linked ∧
      ∀ f, ((s.makeNode key value).setLists lists).nodesAt f =
        if f = 1 then s.nodesAt f ++ [s.fresh] else s.nodesAt f := by
  obtain ⟨lists, hadd, hnonnull, -, hnodes⟩ :=
    addToFreqList_spec (s := s.makeNode key value) s.fresh h.nonnull
  have hfreq : ((s.makeNode key value).heap s.fresh).freq = 1 := by simp
  have hnodes' : ∀ f, ((s.makeNode key value).setLists lists).nodesAt f =
      if f = 1 then s.nodesAt f ++ [s.fresh] else s.nodesAt f := by
    rw [hfreq] at hnodes
    exact hnodes
  have hnew : ∀ p, ((s.makeNode key value).setLists lists).Resident p ↔
      p = s.fresh ∨ s.Resident p := resident_makeNode value hkey
  -- the address of a new node is no address of a resident
  have hold : ∀ p, s.Resident p → p ≠ s.fresh := fun p hp => Nat.ne_of_lt (h.older p hp)
  have hheap : ∀ p, p ≠ s.fresh → ((s.makeNode key value).setLists lists).heap p = s.heap p := by
    intro p hp
    simp [hp]
  -- it cannot be in a list yet
  have hfresh_not : ∀ f, s.fresh ∉ s.nodesAt f := fun f hmem =>
    hold _ ((h.mem_nodesAt f s.fresh).mp hmem).1 rfl
  refine ⟨lists, hadd, ?_, hnodes'⟩
  constructor
  case keyed =>
    intro k p hk
    by_cases hkk : k = key
    · subst hkk
      have hp : p = s.fresh := by simpa using hk.symm
      subst hp
      simp
    · have hlook : s.nodeMap_.lookup k = some p := by
        simpa [AList.lookup_insert_ne hkk] using hk
      rw [hheap p (hold p ((resident_iff s p).mpr ⟨k, hlook⟩))]
      exact h.keyed k p hlook
  case older =>
    intro p hp
    rcases (hnew p).mp hp with rfl | hp'
    · exact Nat.lt_succ_self _
    · exact Nat.lt_succ_of_lt (h.older p hp')
  case mem_nodesAt =>
    intro f p
    rw [hnodes' f, hnew]
    by_cases hp : p = s.fresh
    · subst hp
      by_cases hf : f = 1
      · simp [hf]
      · simp [hf, hfresh_not f, Ne.symm hf]
    · rw [hheap p hp, or_iff_right hp, ← h.mem_nodesAt f p]
      by_cases hf : f = 1 <;> simp [hf, hp]
  case nodup =>
    intro f
    rw [hnodes' f]
    split
    · exact List.Nodup.append (h.nodup f) (List.nodup_singleton _) (by simpa using hfresh_not f)
    · exact h.nodup f
  case nonnull => exact hnonnull
  case freq_pos =>
    intro p hp
    rcases (hnew p).mp hp with rfl | hp'
    · simp
    · rw [hheap p (hold p hp')]
      exact h.freq_pos p hp'

/-- Erasing the key of a resident erases that resident and no other. -/
theorem resident_eraseKey {s : RainLfu Key Value} (h : s.Linked) {p : NodePtr}
    (hp : s.Resident p) (q : NodePtr) :
    (s.eraseKey (s.heap p).key).Resident q ↔ s.Resident q ∧ q ≠ p := by
  obtain ⟨kp, hkp⟩ := (resident_iff s p).mp hp
  have hkey : (s.heap p).key = kp := h.keyed kp p hkp
  rw [resident_iff, resident_iff, eraseKey_nodeMap_]
  constructor
  · rintro ⟨k, hk⟩
    by_cases hkk : k = (s.heap p).key
    · subst hkk
      simp at hk
    · rw [AList.lookup_erase_ne hkk] at hk
      exact ⟨⟨k, hk⟩, fun hqp => hkk (by rw [← hqp]; exact (h.keyed k q hk).symm)⟩
  · rintro ⟨⟨k, hk⟩, hqp⟩
    have hkk : k ≠ (s.heap p).key := by
      intro hkk
      rw [hkk, hkey, hkp, Option.some.injEq] at hk
      exact hqp hk.symm
    exact ⟨k, by rw [AList.lookup_erase_ne hkk]; exact hk⟩

theorem size_eraseKey {s : RainLfu Key Value} (h : s.Linked) {p : NodePtr}
    (hp : s.Resident p) : (s.eraseKey (s.heap p).key).size + 1 = s.size := by
  obtain ⟨kp, hkp⟩ := (resident_iff s p).mp hp
  have hmem : (s.heap p).key ∈ s.nodeMap_.keys := by
    rw [h.keyed kp p hkp]
    exact AList.lookup_isSome.mp (by simp [hkp])
  have hkeys := List.length_erase_of_mem hmem
  have hpos := List.length_pos_of_mem hmem
  rw [← AList.keys_erase] at hkeys
  simp only [AList.keys, List.keys, List.length_map] at hkeys hpos
  simp only [size, eraseKey_nodeMap_]
  omega

/-- Taking the resident `p` out of its list and out of `nodeMap_`. -/
theorem evict_linked {s : RainLfu Key Value} (h : s.Linked) {p : NodePtr} (hp : s.Resident p) :
    ∃ lists, s.removeFromFreqList p = some (s.setLists lists) ∧
      ((s.setLists lists).eraseKey (s.heap p).key).Linked ∧
      ∀ f, (s.setLists lists).nodesAt f = (s.nodesAt f).erase p := by
  obtain ⟨lists, hrem, hnonnull, -, hnodes⟩ := h.remove hp
  have hres : ∀ q, ((s.setLists lists).eraseKey (s.heap p).key).Resident q ↔
      s.Resident q ∧ q ≠ p := resident_eraseKey h hp
  have hnodes' : ∀ f, ((s.setLists lists).eraseKey (s.heap p).key).nodesAt f =
      (s.nodesAt f).erase p := hnodes
  refine ⟨lists, hrem, ?_, hnodes⟩
  constructor
  case keyed =>
    intro k q hk
    by_cases hkk : k = (s.heap p).key
    · subst hkk
      -- `nodeMap_` has no entry for the erased key
      simp at hk
    · rw [eraseKey_nodeMap_, AList.lookup_erase_ne hkk] at hk
      exact h.keyed k q hk
  case older => exact fun q hq => h.older q ((hres q).mp hq).1
  case mem_nodesAt =>
    intro f q
    rw [hnodes' f, hres, (h.nodup f).mem_erase_iff, h.mem_nodesAt f q]
    simp only [eraseKey_heap, setLists_heap]
    tauto
  case nodup =>
    intro f
    rw [hnodes' f]
    exact (h.nodup f).erase p
  case nonnull => exact hnonnull
  case freq_pos => exact fun q hq => h.freq_pos q ((hres q).mp hq).1

end Keyed

end RainLfu

end RainWebServer.Util
