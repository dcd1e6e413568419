import RainWebServer.Util.RainLfuReference
import Mathlib.Algebra.Order.BigOperators.Group.List
import Mathlib.Algebra.Order.Ring.Int

/-!
# RainLfu: Totals and the Least Frequency

`curTotalNum_` counts the accesses and loses the frequency of every node that is evicted, but not
what an aging pass takes off the frequencies. It therefore never falls below the sum of the
frequencies. While the average stays within `maxAverageNum_`, some resident node is at most at
that frequency; and once aging passes run they lower the nodes faster than hits raise them. So the
least frequency stays at most `maxAverageNum_`, and `updateMinFreq` never meets its cap if that
is below `INT8_MAX`.

## Main results

- `Counted.hit`, `Counted.evict`, `Roomy.insert` : the totals and the least frequency stay right
- `Counted.perform` : one operation, and the pairs that it leaves
-/

namespace RainWebServer.Util

namespace RainLfu

variable {Key Value : Type} [DecidableEq Key]

/-! ## §1 The sum of the frequencies -/

/-- The sum of the frequencies of the residents. -/
def freqSum (s : RainLfu Key Value) : Int := (s.nodePtrs.map (fun p => (s.heap p).freq)).sum

omit [DecidableEq Key] in
theorem freqSum_le_of_freq_le {s t : RainLfu Key Value} (hmap : t.nodeMap_ = s.nodeMap_)
    (hle : ∀ p, s.Resident p → (t.heap p).freq ≤ (s.heap p).freq) : t.freqSum ≤ s.freqSum := by
  have hptrs : t.nodePtrs = s.nodePtrs := by
    rw [nodePtrs, hmap]
    rfl
  rw [freqSum, freqSum, hptrs]
  exact List.sum_le_sum hle

/-- Aging does not raise a frequency. -/
theorem agedFreq_le {m f : Int} (hm : 0 ≤ m) (hf : 1 ≤ f) : agedFreq m f ≤ f := by
  have hhalf : 0 ≤ m.tdiv 2 := Int.tdiv_nonneg hm (by decide)
  unfold agedFreq
  split <;> omega

omit [DecidableEq Key] in
theorem freqSum_nonneg {s : RainLfu Key Value} (hpos : ∀ p, s.Resident p → 1 ≤ (s.heap p).freq) :
    0 ≤ s.freqSum := by
  apply List.sum_nonneg
  intro f hf
  obtain ⟨q, hq, rfl⟩ := List.mem_map.mp hf
  exact (hpos q hq).trans' (by decide)

omit [DecidableEq Key] in
/-- A frequency of a resident is at most the sum. -/
theorem freq_le_freqSum {s : RainLfu Key Value} (hpos : ∀ p, s.Resident p → 1 ≤ (s.heap p).freq)
    {p : NodePtr} (hp : s.Resident p) : (s.heap p).freq ≤ s.freqSum := by
  rw [freqSum, ← List.sum_map_erase _ hp]
  have hrest : 0 ≤ ((s.nodePtrs.erase p).map (fun q => (s.heap q).freq)).sum := by
    apply List.sum_nonneg
    intro f hf
    obtain ⟨q, hq, rfl⟩ := List.mem_map.mp hf
    have hq' := hpos q (List.mem_of_mem_erase hq)
    omega
  omega

omit [DecidableEq Key] in
/-- If all residents are above `m`, so is their average. -/
theorem lt_freqSum_of_lt {s : RainLfu Key Value} {m : Int}
    (h : ∀ p, s.Resident p → m + 1 ≤ (s.heap p).freq) : (m + 1) * s.size ≤ s.freqSum := by
  have hsum := List.card_nsmul_le_sum (s.nodePtrs.map (fun p => (s.heap p).freq)) (m + 1) (by
    intro f hf
    obtain ⟨p, hp, rfl⟩ := List.mem_map.mp hf
    exact h p hp)
  rw [List.length_map, ← size_eq_length_nodePtrs, nsmul_eq_mul, mul_comm] at hsum
  exact hsum

/-! ## §2 The pairs -/

/-- The pair of `key`, if it is resident. -/
def valueOf (s : RainLfu Key Value) (key : Key) : Option Value :=
  (s.nodeMap_.lookup key).map (fun p => (s.heap p).value)

/-- Every pair is the one that `last` remembers. -/
def Remembers (s : RainLfu Key Value) (last : Key → Option Value) : Prop :=
  ∀ key value, s.valueOf key = some value → last key = some value

/-- A `put` is remembered. -/
theorem Remembers.put {s t : RainLfu Key Value} {last : Key → Option Value} (h : s.Remembers last)
    {key : Key} {value : Value}
    (ht : ∀ k, t.valueOf k = if k = key then some value else s.valueOf k) :
    t.Remembers (Function.update last key (some value)) := by
  intro k v hv
  rw [ht] at hv
  rw [Function.update_apply]
  by_cases hk : k = key
  · rw [if_pos hk] at hv ⊢
    exact hv
  · rw [if_neg hk] at hv ⊢
    exact h k v hv

/-- What is remembered after an operation. -/
def lastAfter (last : Key → Option Value) : Op Key Value → Key → Option Value
  | .put key value => Function.update last key (some value)
  | .get _ | .purge => last

/-- The number of calls that an operation counts as: `purge` is not an access. -/
def Op.accesses : Op Key Value → Nat
  | .put _ _ | .get _ => 1
  | .purge => 0

/-! ## §3 Hits -/

/-- The totals and the least frequency of a cache, between two operations. -/
structure Counted (s : RainLfu Key Value) : Prop extends s.Inv where
  two_le : 2 ≤ s.maxAverageNum_
  lt_cap : s.maxAverageNum_ < int8Max
  sum_le : s.freqSum ≤ s.curTotalNum_
  low : s.size ≠ 0 → ∃ p, s.Resident p ∧ (s.heap p).freq ≤ s.maxAverageNum_

/-- A node just above the maximum is lowered to it or below. -/
theorem agedFreq_le_max {m f : Int} (hm : 2 ≤ m) (hf : f ≤ m + 1) : agedFreq m f ≤ m := by
  have hhalf : m.tdiv 2 = m / 2 := Int.tdiv_eq_ediv_of_nonneg (by omega)
  unfold agedFreq
  rw [hhalf]
  split <;> omega

omit [DecidableEq Key] in
/-- A hit raises one frequency, so the sum of the frequencies by one. -/
theorem sum_hitFreq {s : RainLfu Key Value} (hnodup : s.nodePtrs.Nodup) {p : NodePtr}
    (hp : s.Resident p) : (s.nodePtrs.map (s.hitFreq p)).sum = s.freqSum + 1 := by
  rw [freqSum, ← List.sum_map_erase _ hp, ← List.sum_map_erase _ hp]
  have hrest : (s.nodePtrs.erase p).map (s.hitFreq p) =
      (s.nodePtrs.erase p).map (fun q => (s.heap q).freq) := by
    refine List.map_congr_left fun q hq => ?_
    have hne : q ≠ p := (hnodup.mem_erase_iff.mp hq).1
    rw [hitFreq, if_neg hne, add_zero]
  rw [hrest, hitFreq, if_pos rfl]
  omega

/-- What a hit does to the counters, the values and the frequencies. -/
theorem getInternal_counts {s : RainLfu Key Value} (h : s.Inv) {p : NodePtr} (hp : s.Resident p)
    (env : Env Key) :
    ∃ t, s.getInternal env p = some ((s.heap p).value, t) ∧ t.nodeMap_ = s.nodeMap_ ∧
      t.capacity_ = s.capacity_ ∧ t.maxAverageNum_ = s.maxAverageNum_ ∧
      t.curTotalNum_ = s.curTotalNum_ + 1 ∧
      (∀ q, (t.heap q).value = (s.heap q).value) ∧
      (¬s.AgingFires → ∀ q, (t.heap q).freq = s.hitFreq p q) ∧
      (s.AgingFires → ∀ q, s.Resident q →
        (t.heap q).freq = agedFreq s.maxAverageNum_ (s.hitFreq p q)) := by
  obtain ⟨s₁, f, hrel, hlinked₁, hf, -, hne, hfires, hget⟩ :=
    getInternal_moves h.linked h.minFreqOk h.minFreq_pos hp env
  obtain ⟨t, ht, -, hmap, hcap, hmax, -, hquiet, haging⟩ :=
    addFreqNum_spec (hlinked₁.setMinFreq f) hne hf env
  have hkept := addFreqNum_counters ht
  refine ⟨t, hget t ht, hmap.trans hrel.nodeMap_eq, hcap.trans hrel.capacity_eq,
    hmax.trans hrel.maxAverageNum_eq, ?_, ?_, ?_, ?_⟩
  · rw [hkept.total]
    show s₁.curTotalNum_ + 1 = _
    rw [hrel.total_eq]
  · intro q
    rw [hkept.value]
    show (s₁.heap q).value = _
    rw [hrel.heap_eq, Function.update_apply]
    split
    · rename_i hq
      rw [hq]
    · rfl
  · intro hnot q
    rw [(hquiet (fun hx => hnot (hfires.mp hx))).2]
    exact hrel.freq_eq_hitFreq q
  · intro hyes q hq
    rw [(haging (hfires.mpr hyes)).1 q ((hrel.resident_iff q).mpr hq)]
    show agedFreq s₁.maxAverageNum_ (s₁.heap q).freq = _
    rw [hrel.maxAverageNum_eq, hrel.freq_eq_hitFreq]

/-- **A hit keeps the totals and the least frequency right.** -/
theorem Counted.hit {s : RainLfu Key Value} (h : s.Counted) {p : NodePtr} (hp : s.Resident p)
    (env : Env Key) :
    ∃ t, s.getInternal env p = some ((s.heap p).value, t) ∧ t.Counted ∧
      t.capacity_ = s.capacity_ ∧ t.maxAverageNum_ = s.maxAverageNum_ ∧
      t.curTotalNum_ = s.curTotalNum_ + 1 ∧ ∀ key, t.valueOf key = s.valueOf key := by
  obtain ⟨t, ht, hmap, hcap_t, hmax, htotal, hvalue, hquiet, haging⟩ :=
    getInternal_counts h.toInv hp env
  have hne : s.size ≠ 0 := by
    rw [size_eq_length_nodePtrs]
    exact Nat.ne_of_gt (List.length_pos_of_mem hp)
  obtain ⟨r, hr, hrlow⟩ := h.low hne
  have htwo := h.two_le
  have hcap := h.lt_cap
  -- the low node is still at most one above the maximum
  have hrhit : s.hitFreq p r ≤ s.maxAverageNum_ + 1 := by
    rw [hitFreq]
    split <;> omega
  have hinv : t.Inv := by
    obtain ⟨t', ht', hgood, -⟩ := hit_spec h.toInv hp env
    rw [ht, Option.some.injEq, Prod.mk.injEq] at ht'
    refine ht'.2 ▸ hgood fun _ => ⟨r, hr, ?_⟩
    have hle := agedFreq_le_max htwo hrhit
    omega
  have hres : ∀ q, t.Resident q ↔ s.Resident q := by
    intro q
    rw [Resident, Resident, nodePtrs, nodePtrs, hmap]
  have hfreq_le : ∀ q, s.Resident q → (t.heap q).freq ≤ s.hitFreq p q := by
    intro q hq
    rcases Classical.em s.AgingFires with hfires | hfires
    · rw [haging hfires q hq]
      apply agedFreq_le (by omega)
      have hpos := h.linked.freq_pos q hq
      rw [hitFreq]
      split <;> omega
    · rw [hquiet hfires q]
  have hsum : t.freqSum ≤ t.curTotalNum_ := by
    have hptrs : t.nodePtrs = s.nodePtrs := by
      rw [nodePtrs, hmap]
      rfl
    have hle : t.freqSum ≤ (s.nodePtrs.map (s.hitFreq p)).sum := by
      rw [freqSum, hptrs]
      exact List.sum_le_sum hfreq_le
    rw [sum_hitFreq h.linked.nodup_nodePtrs hp] at hle
    have hsum_le := h.sum_le
    omega
  have hpairs : ∀ key, t.valueOf key = s.valueOf key := by
    intro key
    rw [valueOf, valueOf, hmap]
    exact congrArg (fun f => Option.map f _) (funext hvalue)
  refine ⟨t, ht, ⟨hinv, hmax ▸ htwo, hmax ▸ hcap, hsum, fun _ => ?_⟩, hcap_t, hmax, htotal, hpairs⟩
  rw [hmax]
  rcases Classical.em s.AgingFires with hfires | hfires
  · refine ⟨r, (hres r).mpr hr, ?_⟩
    rw [haging hfires r hr]
    exact agedFreq_le_max htwo hrhit
  · -- otherwise the average would be above the maximum
    by_contra hhigh
    have hall : ∀ q, t.Resident q → s.maxAverageNum_ + 1 ≤ (t.heap q).freq := by
      intro q hq
      by_contra hlt
      exact hhigh ⟨q, hq, by omega⟩
    have hlarge := lt_freqSum_of_lt hall
    have hsize : t.size = s.size := by
      rw [size, hmap]
      rfl
    have hnonneg : 0 ≤ s.curTotalNum_ + 1 := by
      have hfreqs := freqSum_nonneg h.linked.freq_pos
      have hle := h.sum_le
      omega
    have haverage : (s.curTotalNum_ + 1) / s.size < s.maxAverageNum_ + 1 := by
      rw [AgingFires, averageOf, if_neg hne, divSize_of_nonneg hnonneg] at hfires
      omega
    rw [Int.ediv_lt_iff_lt_mul (by omega)] at haverage
    rw [hsize] at hlarge
    omega

/-! ## §4 Evictions and insertions -/

/-- A cache with a free place. Its `minFreq_` may be out of date after an eviction. -/
structure Roomy (s : RainLfu Key Value) : Prop where
  linked : s.Linked
  room : (s.size : Int) < s.capacity_
  minFreq_pos : 1 ≤ s.minFreq_
  two_le : 2 ≤ s.maxAverageNum_
  lt_cap : s.maxAverageNum_ < int8Max
  sum_le : s.freqSum ≤ s.curTotalNum_

/-- `kickOut` takes the frequency of its node off the total. -/
theorem kickOut_total {s t : RainLfu Key Value} {env : Env Key} (h : s.kickOut env = some t)
    {p : NodePtr} (hfirst : (s.listAt s.minFreq_).bind FreqList.getFirstNode = some p) :
    t.curTotalNum_ = s.curTotalNum_ - (s.heap p).freq := by
  obtain ⟨l, hl, hrest⟩ := Option.bind_eq_some_iff.mp h
  rw [hl, Option.bind_some] at hfirst
  simp only [hfirst] at hrest
  obtain ⟨u, hu, ht⟩ := Option.bind_eq_some_iff.mp hrest
  obtain ⟨l', -, hu'⟩ := Option.bind_eq_some_iff.mp hu
  cases hu'
  cases ht
  rfl

omit [DecidableEq Key] in
/-- The sum of the frequencies without one node. -/
theorem freqSum_of_resident_iff {s t : RainLfu Key Value} (hs : s.nodePtrs.Nodup)
    (ht : t.nodePtrs.Nodup) (hheap : t.heap = s.heap) {p : NodePtr} (hp : s.Resident p)
    (hres : ∀ q, t.Resident q ↔ s.Resident q ∧ q ≠ p) :
    t.freqSum + (s.heap p).freq = s.freqSum := by
  have hperm : t.nodePtrs.Perm (s.nodePtrs.erase p) := by
    rw [List.perm_ext_iff_of_nodup ht (hs.erase p)]
    intro q
    rw [hs.mem_erase_iff]
    exact (hres q).trans and_comm
  have hsum := List.sum_map_erase (fun q => (s.heap q).freq) hp
  rw [freqSum, freqSum, hheap, (hperm.map _).sum_eq]
  omega

/-- **An eviction** makes room and keeps the total above the sum of the frequencies. -/
theorem Counted.evict {s : RainLfu Key Value} (h : s.Counted)
    (hfull : (s.size : Int) = s.capacity_) (env : Env Key) :
    ∃ t, s.kickOut env = some t ∧ t.Roomy ∧ t.capacity_ = s.capacity_ ∧
      t.maxAverageNum_ = s.maxAverageNum_ ∧ t.curTotalNum_ ≤ s.curTotalNum_ ∧
      (∀ key, s.nodeMap_.lookup key = none → t.nodeMap_.lookup key = none) ∧
      ∀ last, s.Remembers last → t.Remembers last := by
  have hne : s.size ≠ 0 := by
    have hpos := h.capacity_pos
    omega
  obtain ⟨p, t, hkick, hev, hlinked, hcap, hmax, hmin⟩ :=
    kickOut_spec h.linked h.minFreqOk hne env
  have hheap := kickOut_heap hkick
  have htotal := kickOut_total hkick hev.first
  have hfreq := h.linked.freq_pos p hev.resident
  have hsum := freqSum_of_resident_iff h.linked.nodup_nodePtrs hlinked.nodup_nodePtrs hheap
    hev.resident hev.resident_iff
  have hle := h.sum_le
  have hsize := hev.size_eq
  refine ⟨t, hkick, ⟨hlinked, by omega, hmin ▸ h.minFreq_pos, hmax ▸ h.two_le, hmax ▸ h.lt_cap,
    by omega⟩, hcap, hmax, by omega, fun key hkey => hev.lookup_none hkey,
    fun last hlast key value hvalue => ?_⟩
  rcases hev.lookup key with hnone | hsame
  · rw [valueOf, hnone] at hvalue
    cases hvalue
  · rw [valueOf, hsame, hheap] at hvalue
    exact hlast key value hvalue

/-- The pairs after a node for a new key has been made. -/
theorem valueOf_makeNode {s : RainLfu Key Value} (h : s.Linked) {key : Key} (value : Value)
    (k : Key) : (s.makeNode key value).valueOf k = if k = key then some value else s.valueOf k := by
  by_cases hk : k = key
  · rw [if_pos hk, hk, valueOf, makeNode_nodeMap_, AList.lookup_insert]
    simp
  · rw [if_neg hk, valueOf, makeNode_nodeMap_, AList.lookup_insert_ne hk, valueOf]
    cases hlook : s.nodeMap_.lookup k with
    | none => rfl
    | some p =>
      have hold : p ≠ s.fresh := Nat.ne_of_lt (h.older p ((resident_iff s p).mpr ⟨k, hlook⟩))
      simp [hold]

/-- A new node adds its frequency 1 to the sum. -/
theorem freqSum_makeNode {s : RainLfu Key Value} (holder : ∀ p, s.Resident p → p < s.fresh)
    {key : Key} (value : Value) (hkey : s.nodeMap_.lookup key = none) :
    (s.makeNode key value).freqSum = s.freqSum + 1 := by
  have hrest : s.nodePtrs.map (fun p => ((s.makeNode key value).heap p).freq) =
      s.nodePtrs.map (fun p => (s.heap p).freq) := by
    refine List.map_congr_left fun p hp => ?_
    have hold : p ≠ s.fresh := Nat.ne_of_lt (holder p hp)
    simp [hold]
  rw [freqSum, nodePtrs_makeNode value hkey, List.map_cons, List.sum_cons, hrest, freqSum]
  simp only [makeNode_heap, Function.update_self]
  omega

/-- **An insertion** into a cache with a free place. -/
theorem Roomy.insert {s : RainLfu Key Value} (h : s.Roomy) {key : Key} (value : Value)
    (hkey : s.nodeMap_.lookup key = none) (env : Env Key) :
    ∃ s₁ t, (s.makeNode key value).addToFreqList s.fresh = some s₁ ∧
      s₁.addFreqNum env = some t ∧ (t.setMinFreq (min t.minFreq_ 1)).Counted ∧
      t.capacity_ = s.capacity_ ∧ t.maxAverageNum_ = s.maxAverageNum_ ∧
      t.curTotalNum_ = s.curTotalNum_ + 1 ∧
      ∀ k, t.valueOf k = if k = key then some value else s.valueOf k := by
  have htwo := h.two_le
  have hcap : 1 ≤ s.capacity_ := by
    have hroom := h.room
    omega
  obtain ⟨s₁, t, hadd, ht, hinv⟩ :=
    insert_spec h.linked h.minFreq_pos hcap (by omega) h.room value hkey env
  obtain ⟨lists, hadd', hlinked, -⟩ := makeNode_linked h.linked value hkey
  rw [hadd, Option.some.injEq] at hadd'
  subst hadd'
  have hsize₁ : ((s.makeNode key value).setLists lists).size = s.size + 1 :=
    size_makeNode value hkey
  obtain ⟨t', ht', -, hmap, hcap_t, hmax, -, hquiet, haging⟩ :=
    addFreqNum_spec hlinked (by omega) (by exact h.minFreq_pos) env
  rw [ht, Option.some.injEq] at ht'
  subst ht'
  have hkept := addFreqNum_counters ht
  have hle : ∀ q, ((s.makeNode key value).setLists lists).Resident q →
      (t.heap q).freq ≤ ((s.makeNode key value).heap q).freq := by
    intro q hq
    rcases Classical.em ((s.makeNode key value).setLists lists).AgingFires with hfires | hfires
    · rw [(haging hfires).1 q hq]
      exact agedFreq_le (show 0 ≤ s.maxAverageNum_ by omega) (hlinked.freq_pos q hq)
    · rw [(hquiet hfires).2]
      exact le_refl _
  have hsum : t.freqSum ≤ t.curTotalNum_ := by
    have hfreqs : t.freqSum ≤ (s.makeNode key value).freqSum := freqSum_le_of_freq_le hmap hle
    rw [freqSum_makeNode h.linked.older value hkey] at hfreqs
    have htotal : t.curTotalNum_ = s.curTotalNum_ + 1 := hkept.total
    have hsum_le := h.sum_le
    omega
  have hnew : t.Resident s.fresh := by
    rw [Resident, nodePtrs, hmap]
    exact (resident_makeNode value hkey s.fresh).mpr (.inl rfl)
  -- the new node is at frequency 1, and aging leaves it there
  have hlow : (t.heap s.fresh).freq ≤ 1 := by
    refine (hle s.fresh ((resident_makeNode value hkey s.fresh).mpr (.inl rfl))).trans ?_
    simp
  have hmax_t : t.maxAverageNum_ = s.maxAverageNum_ := hmax
  refine ⟨_, t, hadd, ht, ⟨hinv, ?_, ?_, hsum, fun _ => ⟨s.fresh, hnew, ?_⟩⟩, hcap_t, hmax_t,
    hkept.total, fun k => ?_⟩
  · exact hmax_t ▸ htwo
  · exact hmax_t ▸ h.lt_cap
  · show (t.heap s.fresh).freq ≤ t.maxAverageNum_
    omega
  · rw [← valueOf_makeNode h.linked, valueOf, hmap, valueOf]
    exact congrArg (fun f => Option.map f _) (funext hkept.value)

/-- A `put` of a new key. -/
theorem Counted.putInternal {s : RainLfu Key Value} (h : s.Counted) {key : Key} (value : Value)
    (hkey : s.nodeMap_.lookup key = none) (env : Env Key) :
    ∃ t, s.putInternal env key value = some t ∧ t.Counted ∧ t.capacity_ = s.capacity_ ∧
      t.maxAverageNum_ = s.maxAverageNum_ ∧ t.curTotalNum_ ≤ s.curTotalNum_ + 1 ∧
      ∀ last, s.Remembers last → t.Remembers (Function.update last key (some value)) := by
  by_cases hfull : (s.size : Int) = s.capacity_
  · obtain ⟨s₁, hkick, hroomy, hcap, hmax, htotal, hnone, hkeep⟩ := h.evict hfull env
    obtain ⟨s₂, t, hadd, ht, hcounted, hcap_t, hmax_t, htotal_t, hvalue_t⟩ :=
      hroomy.insert value (hnone key hkey) env
    refine ⟨t.setMinFreq (min t.minFreq_ 1), ?_, hcounted, hcap_t.trans hcap, hmax_t.trans hmax,
      ?_, fun last hlast => (hkeep last hlast).put hvalue_t⟩
    · simp only [RainLfu.putInternal, if_pos hfull, hkick, Option.bind_eq_bind, Option.bind_some,
        hadd, ht]
    · show t.curTotalNum_ ≤ _
      omega
  · have hroomy : s.Roomy := ⟨h.linked, lt_of_le_of_ne h.size_le hfull, h.minFreq_pos, h.two_le,
      h.lt_cap, h.sum_le⟩
    obtain ⟨s₂, t, hadd, ht, hcounted, hcap_t, hmax_t, htotal_t, hvalue_t⟩ :=
      hroomy.insert value hkey env
    refine ⟨t.setMinFreq (min t.minFreq_ 1), ?_, hcounted, hcap_t, hmax_t, ?_,
      fun last hlast => hlast.put hvalue_t⟩
    · simp only [RainLfu.putInternal, if_neg hfull, Option.bind_eq_bind, Option.bind_some, hadd,
        ht]
    · show t.curTotalNum_ ≤ _
      omega

/-! ## §5 One operation -/

theorem Counted.setValue {s : RainLfu Key Value} (h : s.Counted) (p : NodePtr) (v : Value) :
    (s.setValue p v).Counted := by
  have hfreq := fun q => freq_setValue s p q v
  refine ⟨inv_setValue h.toInv p v, h.two_le, h.lt_cap, ?_, fun hne => ?_⟩
  · have hsum : (s.setValue p v).freqSum ≤ s.freqSum :=
      freqSum_le_of_freq_le rfl fun q _ => le_of_eq (hfreq q)
    exact hsum.trans h.sum_le
  · obtain ⟨q, hq, hlow⟩ := h.low hne
    exact ⟨q, hq, (hfreq q).symm ▸ hlow⟩

/-- The pairs after `node->value = v`. -/
theorem valueOf_setValue {s : RainLfu Key Value} (h : s.Linked) {key : Key} {p : NodePtr}
    (hp : s.nodeMap_.lookup key = some p) (value : Value) (k : Key) :
    (s.setValue p value).valueOf k = if k = key then some value else s.valueOf k := by
  by_cases hk : k = key
  · rw [if_pos hk, hk, valueOf, setValue_nodeMap_, hp]
    simp
  · rw [if_neg hk, valueOf, setValue_nodeMap_, valueOf]
    cases hlook : s.nodeMap_.lookup k with
    | none => rfl
    | some q =>
      have hne : q ≠ p := by
        intro hqp
        exact hk ((h.keyed k q hlook).symm.trans (hqp ▸ h.keyed key p hp))
      simp [hne]

/-- **One operation** does not fault, keeps the counts right, adds at most one to the total and
    leaves only pairs that were put last; a `get` returns the pair of its key. -/
theorem Counted.perform {s : RainLfu Key Value} (h : s.Counted) (env : Env Key)
    (op : Op Key Value) :
    ∃ t result, s.perform env op = some (t, result) ∧ t.Counted ∧ t.capacity_ = s.capacity_ ∧
      t.maxAverageNum_ = s.maxAverageNum_ ∧
      t.curTotalNum_ ≤ s.curTotalNum_ + op.accesses ∧
      (∀ last, s.Remembers last → t.Remembers (lastAfter last op)) ∧
      ∀ key, op = .get key → result = s.valueOf key := by
  have hcap : s.capacity_ ≠ 0 := by
    have hpos := h.capacity_pos
    omega
  cases op with
  | put key value =>
    cases hlook : s.nodeMap_.lookup key with
    | some p =>
      have hp : s.Resident p := (resident_iff s p).mpr ⟨key, hlook⟩
      obtain ⟨t, ht, hcounted, hcap_t, hmax, htotal, hpairs⟩ :=
        (h.setValue p value).hit (by exact hp) env
      refine ⟨t, none, ?_, hcounted, hcap_t, hmax, ?_, fun last hlast => hlast.put fun k => ?_,
        fun k hk => by cases hk⟩
      · simp only [RainLfu.perform, RainLfu.put, if_neg hcap, hlook, ht, Option.map_some]
      · exact le_of_eq htotal
      · rw [hpairs, valueOf_setValue h.linked hlook]
    | none =>
      obtain ⟨t, ht, hcounted, hcap_t, hmax, htotal, hkeep⟩ := h.putInternal value hlook env
      refine ⟨t, none, ?_, hcounted, hcap_t, hmax, htotal, hkeep, fun k hk => by cases hk⟩
      simp only [RainLfu.perform, RainLfu.put, if_neg hcap, hlook, ht, Option.map_some]
  | get key =>
    cases hlook : s.nodeMap_.lookup key with
    | some p =>
      have hp : s.Resident p := (resident_iff s p).mpr ⟨key, hlook⟩
      obtain ⟨t, ht, hcounted, hcap_t, hmax, htotal, hpairs⟩ := h.hit hp env
      refine ⟨t, some (s.heap p).value, ?_, hcounted, hcap_t, hmax, ?_,
        fun last hlast k v hv => hlast k v (hpairs k ▸ hv), fun k hk => ?_⟩
      · simp only [RainLfu.perform, RainLfu.get, hlook, ht, Option.map_some]
      · exact le_of_eq htotal
      · cases hk
        rw [valueOf, hlook, Option.map_some]
    | none =>
      refine ⟨s, none, ?_, h, rfl, rfl, ?_, fun last hlast => hlast, fun k hk => ?_⟩
      · simp only [RainLfu.perform, RainLfu.get, hlook, Option.map_some]
      · exact Int.le_add_one (le_refl _)
      · cases hk
        rw [valueOf, hlook, Option.map_none]
  | purge =>
    have hnone : ∀ last, s.purge.Remembers last := by
      intro last k v hv
      cases hv
    -- the total stays, and there is nothing left to sum
    have hsum : s.purge.freqSum ≤ s.curTotalNum_ :=
      (freqSum_nonneg h.linked.freq_pos).trans h.sum_le
    exact ⟨s.purge, none, rfl,
      ⟨inv_purge h.toInv, h.two_le, h.lt_cap, hsum, fun hne => absurd rfl hne⟩, rfl, rfl,
      le_of_eq (Int.add_zero _).symm, fun last _ => hnone last, fun k hk => by cases hk⟩

end RainLfu

end RainWebServer.Util
