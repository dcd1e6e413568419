import RainWebServer.Util.RainLfuLinks
import Mathlib.Algebra.Order.Ring.Int

/-!
# RainLfu: `minFreq_`, Eviction and the Aging Cap

`kickOut` takes the first node of the list of `minFreq_` without looking further, so the
cache is right as long as `minFreq_` is the least frequency of a resident node
(`MinFreqOk`). Three paths maintain it: an insertion resets it to 1, a hit moves it up
when the node leaves the last place of its list, and the aging pass recomputes it.

The recomputation starts at `INT8_MAX` and falls back to 1 when nothing smaller is found.
`runGood_iff` is the exact consequence: a run keeps the invariant if and only if no hit
starts an aging pass that leaves every resident node at `INT8_MAX` or more.
-/

namespace RainWebServer.Util

namespace RainLfu

variable {Key Value : Type} [DecidableEq Key]

/-! ## §1 The invariant -/

/-- `minFreq_` is the least frequency of a resident node, if there is one. -/
def MinFreqOk (s : RainLfu Key Value) : Prop :=
  s.size ≠ 0 →
    (∃ p, s.Resident p ∧ (s.heap p).freq = s.minFreq_) ∧
    ∀ p, s.Resident p → s.minFreq_ ≤ (s.heap p).freq

/-- The invariant of the cache between two operations. -/
structure Inv (s : RainLfu Key Value) : Prop where
  linked : s.Linked
  capacity_pos : 1 ≤ s.capacity_
  maxAverageNum_pos : 1 ≤ s.maxAverageNum_
  size_le : (s.size : Int) ≤ s.capacity_
  minFreqOk : s.MinFreqOk
  minFreq_pos : 1 ≤ s.minFreq_

theorem inv_new [Inhabited Key] [Inhabited Value] {capacity : Int} (hcap : 1 ≤ capacity)
    {maxAverageNum : Int} (hmax : 1 ≤ maxAverageNum) :
    (new capacity maxAverageNum : RainLfu Key Value).Inv := by
  have hsize : (new capacity maxAverageNum : RainLfu Key Value).size = 0 := rfl
  refine ⟨linked_of_empty rfl rfl, hcap, hmax, ?_, fun h => absurd hsize h, by simp [new, int8Max]⟩
  rw [hsize]
  exact Int.le_trans (by decide) hcap

/-! ## §2 The aging pass -/

theorem agedFreq_pos (m f : Int) : 1 ≤ agedFreq m f := by
  unfold agedFreq
  split <;> omega

/-- A node of frequency 1 is not lowered. -/
theorem agedFreq_one {m : Int} (hm : 0 ≤ m) : agedFreq m 1 = 1 := by
  have hhalf : 0 ≤ m.tdiv 2 := Int.tdiv_nonneg hm (by decide)
  unfold agedFreq
  split <;> omega

/-- What the aging loop has done to the nodes of `L`. -/
structure AgedOn (L : List NodePtr) (s t : RainLfu Key Value) : Prop where
  nodeMap_eq : t.nodeMap_ = s.nodeMap_
  capacity_eq : t.capacity_ = s.capacity_
  maxAverageNum_eq : t.maxAverageNum_ = s.maxAverageNum_
  freq_mem : ∀ p ∈ L, (t.heap p).freq = agedFreq s.maxAverageNum_ (s.heap p).freq
  freq_not_mem : ∀ p, p ∉ L → (t.heap p).freq = (s.heap p).freq

theorem ageNode_spec {s : RainLfu Key Value} (h : s.Linked) {p : NodePtr} (hp : s.Resident p) :
    ∃ t, s.ageNode p = some t ∧ t.Linked ∧
      Relinked s p (agedFreq s.maxAverageNum_ (s.heap p).freq) t := by
  obtain ⟨lists, t, hrem, hadd, hrel, hlinked⟩ :=
    relink h hp (agedFreq_pos s.maxAverageNum_ (s.heap p).freq)
  refine ⟨t, ?_, hlinked, hrel⟩
  simp only [ageNode, hrem, Option.bind_eq_bind, Option.bind_some]
  exact hadd

/-- The aging loop lowers every node it visits once, whatever the order. -/
theorem foldlM_ageNode {L : List NodePtr} {s : RainLfu Key Value} (h : s.Linked)
    (hL : L.Nodup) (hres : ∀ p ∈ L, s.Resident p) :
    ∃ t, L.foldlM ageNode s = some t ∧ t.Linked ∧ AgedOn L s t := by
  -- induction on the nodes still to be visited
  induction L generalizing s with
  | nil => exact ⟨s, rfl, h, rfl, rfl, rfl, fun p hp => absurd hp (by simp), fun _ _ => rfl⟩
  | cons p L ih =>
    obtain ⟨hpL, hL'⟩ := List.nodup_cons.mp hL
    obtain ⟨s₁, hs₁, hlinked₁, hrel⟩ := ageNode_spec h (hres p (List.mem_cons_self ..))
    have hmax : s₁.maxAverageNum_ = s.maxAverageNum_ := by rw [hrel.eq_rest]; rfl
    have hcap : s₁.capacity_ = s.capacity_ := by rw [hrel.eq_rest]; rfl
    obtain ⟨t, ht, hlinked, haged⟩ := ih hlinked₁ hL'
      (fun q hq => (hrel.resident_iff q).mpr (hres q (List.mem_cons_of_mem _ hq)))
    refine ⟨t, ?_, hlinked, ?_⟩
    · simp only [List.foldlM_cons, hs₁, Option.bind_eq_bind, Option.bind_some]
      exact ht
    constructor
    case nodeMap_eq => rw [haged.nodeMap_eq, hrel.nodeMap_eq]
    case capacity_eq => rw [haged.capacity_eq, hcap]
    case maxAverageNum_eq => rw [haged.maxAverageNum_eq, hmax]
    case freq_mem =>
      intro q hq
      rcases List.mem_cons.mp hq with rfl | hqL
      · rw [haged.freq_not_mem q hpL, hrel.freq_self]
      · have hne : q ≠ p := fun hqp => hpL (hqp ▸ hqL)
        rw [haged.freq_mem q hqL, hmax, hrel.heap_other hne]
    case freq_not_mem =>
      intro q hq
      have hne : q ≠ p := fun hqp => hq (hqp ▸ List.mem_cons_self ..)
      rw [haged.freq_not_mem q (fun hqL => hq (List.mem_cons_of_mem _ hqL)), hrel.heap_other hne]

/-! ## §3 `updateMinFreq` -/

/-- The loop of `updateMinFreq` finds a lower bound that is the start value or attained. -/
theorem leastListed_spec (lists : List (Σ _ : Int, Option FreqList)) (m : Int) :
    leastListed m lists ≤ m ∧
    (∀ f l, (⟨f, some l⟩ : Σ _ : Int, Option FreqList) ∈ lists → l.nodes ≠ [] →
      leastListed m lists ≤ f) ∧
    (leastListed m lists = m ∨ ∃ l, (⟨leastListed m lists, some l⟩ : Σ _ : Int, Option FreqList) ∈
      lists ∧ l.nodes ≠ []) := by
  induction lists generalizing m with
  | nil => simp [leastListed]
  | cons pair lists ih =>
    obtain ⟨g, lg⟩ := pair
    cases lg with
    | none =>
      -- a null list is passed over
      obtain ⟨hle, hall, hatt⟩ := ih m
      refine ⟨hle, fun f l hmem hl => ?_, ?_⟩
      · rcases List.mem_cons.mp hmem with heq | hmem'
        · cases heq
        · exact hall f l hmem' hl
      · rcases hatt with h | ⟨l, hmem, hl⟩
        · exact .inl h
        · exact .inr ⟨l, List.mem_cons_of_mem _ hmem, hl⟩
    | some l₀ =>
      have hstep : leastListed m (⟨g, some l₀⟩ :: lists) =
          leastListed (if l₀.isEmpty then m else min m g) lists := rfl
      rw [hstep]
      obtain ⟨hle, hall, hatt⟩ := ih (if l₀.isEmpty then m else min m g)
      cases he : l₀.nodes with
      | nil =>
        -- so is an empty one
        have hempty : l₀.isEmpty = true := by simp [FreqList.isEmpty, he]
        simp only [hempty, if_true] at hle hall hatt ⊢
        refine ⟨hle, fun f l hmem hl => ?_, ?_⟩
        · rcases List.mem_cons.mp hmem with heq | hmem'
          · cases heq
            exact absurd he hl
          · exact hall f l hmem' hl
        · rcases hatt with h | ⟨l, hmem, hl⟩
          · exact .inl h
          · exact .inr ⟨l, List.mem_cons_of_mem _ hmem, hl⟩
      | cons q qs =>
        -- a list with nodes lowers the candidate to its frequency
        have hempty : l₀.isEmpty = false := by simp [FreqList.isEmpty, he]
        simp only [hempty, Bool.false_eq_true, if_false] at hle hall hatt ⊢
        refine ⟨Int.le_trans hle (Int.min_le_left m g), fun f l hmem hl => ?_, ?_⟩
        · rcases List.mem_cons.mp hmem with heq | hmem'
          · cases heq
            exact Int.le_trans hle (Int.min_le_right m g)
          · exact hall f l hmem' hl
        · rcases hatt with h | ⟨l, hmem, hl⟩
          · -- the bound is the new candidate itself: the start value or the frequency of this list
            rcases Int.le_total m g with hmg | hgm
            · exact .inl (by rw [h, Int.min_eq_left hmg])
            · refine .inr ⟨l₀, ?_, by simp [he]⟩
              rw [h, Int.min_eq_right hgm]
              exact List.mem_cons_self ..
          · exact .inr ⟨l, List.mem_cons_of_mem _ hmem, hl⟩

omit [DecidableEq Key] in
theorem mem_entries_iff_listAt (s : RainLfu Key Value) (f : Int) (l : FreqList) :
    (⟨f, some l⟩ : Σ _ : Int, Option FreqList) ∈ s.freqToFreqList_.entries ↔
      s.listAt f = some l := by
  rw [← AList.mem_lookup_iff, listAt, Option.mem_def]
  cases s.freqToFreqList_.lookup f with
  | none => simp
  | some o => cases o <;> simp

/-- What the loop finds, other than its start value, is the frequency of a resident. -/
theorem exists_of_leastListed_ne {s : RainLfu Key Value} (h : s.Linked)
    (hne : leastListed int8Max s.freqToFreqList_.entries ≠ int8Max) :
    ∃ p, s.Resident p ∧ (s.heap p).freq = leastListed int8Max s.freqToFreqList_.entries := by
  obtain ⟨-, -, hatt⟩ := leastListed_spec s.freqToFreqList_.entries int8Max
  obtain ⟨l, hmem, hl⟩ := hatt.resolve_left hne
  obtain ⟨p, hp⟩ := List.exists_mem_of_ne_nil _ hl
  rw [mem_entries_iff_listAt] at hmem
  exact ⟨p, (h.mem_nodesAt _ p).mp (by simpa [nodesAt, hmem] using hp)⟩

/-- `updateMinFreq` is right exactly when some resident node is below `INT8_MAX`. -/
theorem minFreqOk_updateMinFreq_iff {s : RainLfu Key Value} (h : s.Linked) (hne : s.size ≠ 0) :
    s.updateMinFreq.MinFreqOk ↔ ∃ p, s.Resident p ∧ (s.heap p).freq < int8Max := by
  obtain ⟨hle, hall, -⟩ := leastListed_spec s.freqToFreqList_.entries int8Max
  have hlow : ∀ p, s.Resident p →
      leastListed int8Max s.freqToFreqList_.entries ≤ (s.heap p).freq := by
    intro p hp
    obtain ⟨l, hl, hnodes⟩ := listAt_of_mem_nodesAt (h.mem_own hp)
    refine hall _ l ((mem_entries_iff_listAt s _ l).mpr hl) (fun hnil => ?_)
    have hmem := h.mem_own hp
    rw [hnodes, hnil] at hmem
    exact absurd hmem (by simp)
  constructor
  · intro hok
    obtain ⟨⟨p, hp, hfreq⟩, -⟩ := hok hne
    refine ⟨p, hp, ?_⟩
    -- with nobody below `INT8_MAX` the loop ends at its start value and 1 is stored
    change (s.heap p).freq = if leastListed int8Max s.freqToFreqList_.entries = int8Max then 1
      else leastListed int8Max s.freqToFreqList_.entries at hfreq
    split at hfreq
    · rw [hfreq]
      decide
    · rename_i hcap
      rw [hfreq]
      exact lt_of_le_of_ne hle hcap
  · rintro ⟨p, hp, hlt⟩ -
    have hcap : leastListed int8Max s.freqToFreqList_.entries ≠ int8Max :=
      ne_of_lt (lt_of_le_of_lt (hlow p hp) hlt)
    have hmin : s.updateMinFreq.minFreq_ = leastListed int8Max s.freqToFreqList_.entries := by
      simp [updateMinFreq, hcap]
    have hfound := exists_of_leastListed_ne h hcap
    rw [hmin]
    exact ⟨hfound, hlow⟩

/-- `updateMinFreq` never sets `minFreq_` below 1. -/
theorem updateMinFreq_pos {s : RainLfu Key Value} (h : s.Linked) :
    1 ≤ s.updateMinFreq.minFreq_ := by
  simp only [updateMinFreq, setMinFreq_minFreq_]
  split
  · exact le_refl 1
  · rename_i hcap
    obtain ⟨p, hres, hfreq⟩ := exists_of_leastListed_ne h hcap
    rw [← hfreq]
    exact h.freq_pos p hres

/-! ## §4 `addFreqNum` -/

/-- The access that is being counted makes the average exceed its maximum. -/
def AgingFires (s : RainLfu Key Value) : Prop :=
  s.averageOf (s.curTotalNum_ + 1) > s.maxAverageNum_

/-- Setting `minFreq_` does not touch the links. -/
theorem Linked.setMinFreq {s : RainLfu Key Value} (h : s.Linked) (f : Int) :
    (s.setMinFreq f).Linked :=
  ⟨h.keyed, h.older, h.mem_nodesAt, h.nodup, h.nonnull, h.freq_pos⟩

/-- Nor does setting the counters. -/
theorem Linked.setTotal {s : RainLfu Key Value} (h : s.Linked) (n : Int) :
    (s.setTotal n).Linked :=
  ⟨h.keyed, h.older, h.mem_nodesAt, h.nodup, h.nonnull, h.freq_pos⟩

omit [DecidableEq Key] in
/-- Without aging `addFreqNum` only counts. -/
theorem addFreqNum_of_not_fires {s : RainLfu Key Value} (env : Env Key) (hf : ¬ s.AgingFires) :
    s.addFreqNum env = some (s.setTotal (s.curTotalNum_ + 1)) :=
  if_neg hf

/-- With aging it lowers every resident and recomputes `minFreq_`. -/
theorem addFreqNum_of_fires {s : RainLfu Key Value} (h : s.Linked) (hne : s.size ≠ 0)
    (env : Env Key) (hf : s.AgingFires) :
    ∃ t, s.addFreqNum env = some t.updateMinFreq ∧ t.Linked ∧
      AgedOn (env.order s.nodePtrs) s t := by
  have hperm : (env.order s.nodePtrs).Perm s.nodePtrs := env.order_perm _
  obtain ⟨t, ht, hlinked, haged⟩ :=
    foldlM_ageNode (h.setTotal (s.curTotalNum_ + 1)) (hperm.nodup_iff.mpr h.nodup_nodePtrs)
      (fun p hp => hperm.mem_iff.mp hp)
  refine ⟨t, ?_, hlinked, haged.nodeMap_eq, haged.capacity_eq, haged.maxAverageNum_eq,
    haged.freq_mem, haged.freq_not_mem⟩
  have hsize : (s.setTotal (s.curTotalNum_ + 1)).size ≠ 0 := hne
  have hptrs : (s.setTotal (s.curTotalNum_ + 1)).nodePtrs = s.nodePtrs := rfl
  simp only [addFreqNum]
  rw [if_pos (by exact hf), handleOverMaxAverageNum, if_neg hsize, hptrs, ht]
  rfl

/-- The effect of `addFreqNum` on a non-empty cache. -/
theorem addFreqNum_spec {s : RainLfu Key Value} (h : s.Linked) (hne : s.size ≠ 0)
    (hpos : 1 ≤ s.minFreq_) (env : Env Key) :
    ∃ t, s.addFreqNum env = some t ∧ t.Linked ∧ t.nodeMap_ = s.nodeMap_ ∧
      t.capacity_ = s.capacity_ ∧ t.maxAverageNum_ = s.maxAverageNum_ ∧ 1 ≤ t.minFreq_ ∧
      (¬ s.AgingFires → (t.MinFreqOk ↔ s.MinFreqOk) ∧ t.heap = s.heap) ∧
      (s.AgingFires →
        (∀ p, s.Resident p → (t.heap p).freq = agedFreq s.maxAverageNum_ (s.heap p).freq) ∧
        (t.MinFreqOk ↔
          ∃ p, s.Resident p ∧ agedFreq s.maxAverageNum_ (s.heap p).freq < int8Max)) := by
  by_cases hf : s.AgingFires
  · obtain ⟨t, ht, hlinked, haged⟩ := addFreqNum_of_fires h hne env hf
    have hsize : t.size ≠ 0 := by simpa [size, haged.nodeMap_eq] using hne
    have hres : ∀ p, t.Resident p ↔ s.Resident p := fun p => by
      simp [Resident, nodePtrs, haged.nodeMap_eq]
    -- the order of the `unordered_map` decides who is aged when, not who is aged
    have hmem : ∀ p, s.Resident p → p ∈ env.order s.nodePtrs := fun p hp =>
      (env.order_perm _).mem_iff.mpr hp
    refine ⟨_, ht, hlinked.setMinFreq _, haged.nodeMap_eq, haged.capacity_eq,
      haged.maxAverageNum_eq, updateMinFreq_pos hlinked, fun hnf => absurd hf hnf, fun _ => ?_⟩
    refine ⟨fun p hp => haged.freq_mem p (hmem p hp), ?_⟩
    rw [minFreqOk_updateMinFreq_iff hlinked hsize]
    constructor
    · rintro ⟨p, hp, hlt⟩
      exact ⟨p, (hres p).mp hp, by rwa [← haged.freq_mem p (hmem p ((hres p).mp hp))]⟩
    · rintro ⟨p, hp, hlt⟩
      exact ⟨p, (hres p).mpr hp, by rwa [haged.freq_mem p (hmem p hp)]⟩
  · exact ⟨_, addFreqNum_of_not_fires env hf, h.setTotal _, rfl, rfl, rfl, hpos,
      fun _ => ⟨Iff.rfl, rfl⟩, fun hf' => absurd hf' hf⟩

end RainLfu

end RainWebServer.Util
