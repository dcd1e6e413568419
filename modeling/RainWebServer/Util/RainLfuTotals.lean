import RainWebServer.Lib.Steps
import RainWebServer.Util.RainLfuAllocated
import RainWebServer.Util.RainLfuCounts

/-!
# RainLfu: the Total and the Frequencies

`curTotalNum_` is the sum of the frequencies of the residents as long as every change of a frequency
is booked. Hits, insertions and evictions book theirs; the aging pass of `handleOverMaxAverageNum`
lowers the frequencies and leaves the total, and `kickOut` books the frequency 1 of a sentinel when
it finds the list of `minFreq_` empty.

## Main results

- `Totalled.apply` : one operation, with the exact condition
- `totalsRight_throughout_iff` : whole runs
-/

namespace RainWebServer.Util

open RainWebServer.Lib

namespace RainLfu

variable {Key Value : Type}

/-! ## §1 The statement -/

/-- The total is the sum of the frequencies, and the average is their average. -/
def TotalsRight (s : RainLfu Key Value) : Prop :=
  s.curTotalNum_ = s.freqSum ∧ s.curAverageNum_ = s.averageOf s.freqSum

/-- The access that is counted next does not lower a frequency: it starts no aging pass, or the pass
    subtracts `1 / 2 = 0`. -/
def KeepsFreqs (s : RainLfu Key Value) : Prop := s.AgingFires → s.maxAverageNum_ = 1

instance (s : RainLfu Key Value) : Decidable s.TotalsRight :=
  inferInstanceAs (Decidable (_ ∧ _))

instance (s : RainLfu Key Value) : Decidable s.AgingFires :=
  inferInstanceAs (Decidable (_ < _))

instance (s : RainLfu Key Value) : Decidable s.KeepsFreqs :=
  inferInstanceAs (Decidable (_ → _))

section Keyed

variable [DecidableEq Key]

/-- The condition on the state before an operation. -/
def KeepsTotals (s : RainLfu Key Value) : Op Key Value → Prop
  | .put key _ =>
    if (s.nodeMap_.lookup key).isSome then s.KeepsFreqs
    else (s.size : Int) = s.capacity_ → s.nodesAt s.minFreq_ ≠ []
  | .get key => if (s.nodeMap_.lookup key).isSome then s.KeepsFreqs else True
  | .purge => s.size = 0

instance (s : RainLfu Key Value) : (op : Op Key Value) → Decidable (s.KeepsTotals op)
  | .put key _ => inferInstanceAs (Decidable (if (s.nodeMap_.lookup key).isSome then s.KeepsFreqs
      else ((s.size : Int) = s.capacity_ → s.nodesAt s.minFreq_ ≠ [])))
  | .get key => inferInstanceAs
      (Decidable (if (s.nodeMap_.lookup key).isSome then s.KeepsFreqs else True))
  | .purge => inferInstanceAs (Decidable (s.size = 0))

/-- One operation of a run, as a step. -/
def call (s : RainLfu Key Value) (c : Op Key Value × Env Key) : Option (RainLfu Key Value) :=
  s.apply c.2 c.1

/-! ## §2 What an aging pass takes off -/

/-- Half of 1 is 0. -/
theorem agedFreq_of_max_one {f : Int} (hf : 1 ≤ f) : agedFreq 1 f = f := by
  have hhalf : (1 : Int).tdiv 2 = 0 := by decide
  unfold agedFreq
  rw [hhalf]
  split <;> omega

/-- With a larger maximum every frequency above 1 is lowered. -/
theorem agedFreq_lt {m f : Int} (hm : 2 ≤ m) (hf : 2 ≤ f) : agedFreq m f < f := by
  have hhalf : m.tdiv 2 = m / 2 := Int.tdiv_eq_ediv_of_nonneg (by omega)
  unfold agedFreq
  rw [hhalf]
  split <;> omega

/-- The cache has the same residents with the same frequencies. -/
structure SameFreqs (s t : RainLfu Key Value) : Prop where
  nodeMap_eq : t.nodeMap_ = s.nodeMap_
  maxAverageNum_eq : t.maxAverageNum_ = s.maxAverageNum_
  freq_eq : ∀ p, (t.heap p).freq = (s.heap p).freq

omit [DecidableEq Key] in
theorem SameFreqs.trans {s t u : RainLfu Key Value} (h₁ : s.SameFreqs t) (h₂ : t.SameFreqs u) :
    s.SameFreqs u :=
  ⟨h₂.nodeMap_eq.trans h₁.nodeMap_eq, h₂.maxAverageNum_eq.trans h₁.maxAverageNum_eq,
    fun p => (h₂.freq_eq p).trans (h₁.freq_eq p)⟩

omit [DecidableEq Key] in
theorem SameFreqs.nodePtrs_eq {s t : RainLfu Key Value} (h : s.SameFreqs t) :
    t.nodePtrs = s.nodePtrs := by
  rw [nodePtrs, h.nodeMap_eq]
  rfl

omit [DecidableEq Key] in
theorem SameFreqs.freqSum_eq {s t : RainLfu Key Value} (h : s.SameFreqs t) :
    t.freqSum = s.freqSum := by
  rw [freqSum, freqSum, h.nodePtrs_eq]
  exact congrArg List.sum (List.map_congr_left fun p _ => h.freq_eq p)

omit [DecidableEq Key] in
/-- With a maximum of 1 the pass moves the nodes and leaves their frequencies. -/
theorem ageNode_sameFreqs {s t : RainLfu Key Value} {p : NodePtr} (hmax : s.maxAverageNum_ = 1)
    (hp : 1 ≤ (s.heap p).freq) (ht : s.ageNode p = some t) : s.SameFreqs t := by
  obtain ⟨u, hu, hadd⟩ := Option.bind_eq_some_iff.mp ht
  obtain ⟨lists, rfl⟩ := exists_setLists_of_remove hu
  obtain ⟨lists', rfl⟩ := exists_setLists_of_add hadd
  refine ⟨rfl, rfl, fun q => ?_⟩
  -- 0 is subtracted
  have haged : agedFreq s.maxAverageNum_ (s.heap p).freq = (s.heap p).freq := by
    rw [hmax, agedFreq_of_max_one hp]
  rcases Nat.decEq q p with hq | rfl
  · simp [hq]
  · simpa using haged

omit [DecidableEq Key] in
theorem foldlM_ageNode_sameFreqs {L : List NodePtr} {s t : RainLfu Key Value}
    (hmax : s.maxAverageNum_ = 1) (hL : ∀ p ∈ L, 1 ≤ (s.heap p).freq)
    (ht : L.foldlM ageNode s = some t) : s.SameFreqs t := by
  induction L generalizing s with
  | nil =>
    cases ht
    exact ⟨rfl, rfl, fun _ => rfl⟩
  | cons p L ih =>
    rw [List.foldlM_cons] at ht
    obtain ⟨u, hu, hrest⟩ := Option.bind_eq_some_iff.mp ht
    have hstep := ageNode_sameFreqs hmax (hL p (List.mem_cons_self ..)) hu
    refine hstep.trans (ih (hstep.maxAverageNum_eq.trans hmax) (fun q hq => ?_) hrest)
    rw [hstep.freq_eq]
    exact hL q (List.mem_cons_of_mem _ hq)

omit [DecidableEq Key] in
/-- An access that keeps the frequencies. The lists may be in any state. -/
theorem addFreqNum_sameFreqs {s t : RainLfu Key Value} {env : Env Key}
    (hpos : ∀ p, s.Resident p → 1 ≤ (s.heap p).freq) (hkeeps : s.KeepsFreqs)
    (ht : s.addFreqNum env = some t) : s.SameFreqs t := by
  by_cases hfires : s.AgingFires
  · rw [addFreqNum, if_pos (by exact hfires), handleOverMaxAverageNum] at ht
    split at ht
    · cases ht
      exact ⟨rfl, rfl, fun _ => rfl⟩
    · obtain ⟨u, hu, hdone⟩ := Option.bind_eq_some_iff.mp ht
      cases hdone
      have hloop := foldlM_ageNode_sameFreqs (s := s.setTotal _) (hkeeps hfires)
        (fun p hp => hpos p ((env.order_perm _).mem_iff.mp hp)) hu
      exact ⟨hloop.nodeMap_eq, hloop.maxAverageNum_eq, hloop.freq_eq⟩
  · rw [addFreqNum_of_not_fires env hfires, Option.some.injEq] at ht
    subst ht
    exact ⟨rfl, rfl, fun _ => rfl⟩

/-- A pass that lowers frequencies: the sum falls, as soon as one of them is above 1. -/
theorem addFreqNum_freqSum_lt {s t : RainLfu Key Value} {env : Env Key} (h : s.Linked)
    (hpos : 1 ≤ s.minFreq_) (hfires : s.AgingFires) (hmax : 2 ≤ s.maxAverageNum_) {p : NodePtr}
    (hp : s.Resident p) (hfreq : 2 ≤ (s.heap p).freq) (ht : s.addFreqNum env = some t) :
    t.freqSum < s.freqSum := by
  have hne : s.size ≠ 0 := by
    rw [size_eq_length_nodePtrs]
    exact Nat.ne_of_gt (List.length_pos_of_mem hp)
  obtain ⟨t', ht', -, hmap, -, -, -, -, haging⟩ := addFreqNum_spec h hne hpos env
  rw [ht, Option.some.injEq] at ht'
  subst ht'
  have hptrs : t.nodePtrs = s.nodePtrs := by
    rw [nodePtrs, hmap]
    rfl
  rw [freqSum, freqSum, hptrs]
  -- no frequency rises, and that of `p` falls
  refine List.sum_lt_sum _ _ (fun q hq => ?_) ⟨p, hp, ?_⟩
  · rw [(haging hfires).1 q hq]
    exact agedFreq_le (by omega) (h.freq_pos q hq)
  · rw [(haging hfires).1 p hp]
    exact agedFreq_lt hmax hfreq

omit [DecidableEq Key] in
/-- The total and the average that an access leaves. -/
theorem addFreqNum_average {s t : RainLfu Key Value} {env : Env Key}
    (hmap : t.nodeMap_ = s.nodeMap_) (ht : s.addFreqNum env = some t) :
    t.curTotalNum_ = s.curTotalNum_ + 1 ∧ t.curAverageNum_ = t.averageOf t.curTotalNum_ := by
  have hkept := addFreqNum_counters ht
  have hsize : t.size = s.size := by
    rw [size, hmap]
    rfl
  have htotal : t.curTotalNum_ = s.curTotalNum_ + 1 := hkept.total
  refine ⟨htotal, ?_⟩
  rw [hkept.average, averageOf, hsize, htotal]
  rfl

omit [DecidableEq Key] in
/-- When the average is that of the total, only the total can be wrong. -/
theorem totalsRight_iff {s : RainLfu Key Value}
    (haverage : s.curAverageNum_ = s.averageOf s.curTotalNum_) :
    s.TotalsRight ↔ s.curTotalNum_ = s.freqSum :=
  ⟨fun h => h.1, fun h => ⟨h, h ▸ haverage⟩⟩

/-! ## §3 The invariant -/

/-- The cache between two operations, with the counters right. `minFreq_` may be wrong only after a
    pass that subtracts nothing has met `INT8_MAX`, and then it is 1. -/
structure Totalled (s : RainLfu Key Value) : Prop where
  linked : s.Linked
  capacity_pos : 1 ≤ s.capacity_
  maxAverageNum_pos : 1 ≤ s.maxAverageNum_
  size_le : (s.size : Int) ≤ s.capacity_
  minFreq_pos : 1 ≤ s.minFreq_
  least : s.MinFreqOk ∨ s.minFreq_ = 1 ∧ s.maxAverageNum_ = 1
  right : s.TotalsRight
  quiet : s.maxAverageNum_ = 1 ∨ s.averageOf s.curTotalNum_ ≤ s.maxAverageNum_

theorem Totalled.total_nonneg {s : RainLfu Key Value} (h : s.Totalled) : 0 ≤ s.curTotalNum_ :=
  h.right.1 ▸ freqSum_nonneg h.linked.freq_pos

/-- When the list of `minFreq_` has a node, `minFreq_` is right. -/
theorem Totalled.minFreqOk_of_listed {s : RainLfu Key Value} (h : s.Totalled)
    (hlisted : s.nodesAt s.minFreq_ ≠ []) : s.MinFreqOk := by
  rcases h.least with hok | ⟨hone, -⟩
  · exact hok
  · obtain ⟨p, hp⟩ := List.exists_mem_of_ne_nil _ hlisted
    obtain ⟨hres, hfreq⟩ := (h.linked.mem_nodesAt _ p).mp hp
    refine fun _ => ⟨⟨p, hres, hfreq⟩, fun q hq => ?_⟩
    rw [hone]
    exact h.linked.freq_pos q hq

/-- When it has none although there are nodes, `minFreq_` is the 1 of `updateMinFreq`. -/
theorem Totalled.minFreq_eq_one {s : RainLfu Key Value} (h : s.Totalled) (hne : s.size ≠ 0)
    (hempty : s.nodesAt s.minFreq_ = []) : s.minFreq_ = 1 ∧ s.maxAverageNum_ = 1 := by
  rcases h.least with hok | hone
  · obtain ⟨⟨p, hp, hfreq⟩, -⟩ := hok hne
    have hmem := (h.linked.mem_nodesAt _ p).mpr ⟨hp, hfreq⟩
    rw [hempty] at hmem
    cases hmem
  · exact hone

omit [DecidableEq Key] in
/-- The average of a total that is not negative is not above `m`. -/
theorem averageOf_le_iff {s : RainLfu Key Value} {n m : Int} (hn : 0 ≤ n) (hm : 0 ≤ m) :
    s.averageOf n ≤ m ↔ s.size = 0 ∨ n < (m + 1) * s.size := by
  rw [averageOf, divSize_of_nonneg hn]
  split
  · rename_i hsize
    exact ⟨fun _ => .inl hsize, fun _ => hm⟩
  · rename_i hsize
    have hpos : (0 : Int) < s.size := by omega
    rw [or_iff_right hsize, ← Int.ediv_lt_iff_lt_mul hpos]
    omega

/-- `updateMinFreq` ends with the right `minFreq_` or with 1. -/
theorem updateMinFreq_cases {s : RainLfu Key Value} (h : s.Linked) (hne : s.size ≠ 0) :
    s.updateMinFreq.MinFreqOk ∨ s.updateMinFreq.minFreq_ = 1 := by
  by_cases hcap : leastListed int8Max s.freqToFreqList_.entries = int8Max
  · -- `updateMinFreq` has found no smaller frequency, and falls back to 1
    right
    simp [updateMinFreq, hcap]
  · left
    rw [minFreqOk_updateMinFreq_iff h hne]
    obtain ⟨p, hp, hfreq⟩ := exists_of_leastListed_ne h hcap
    refine ⟨p, hp, ?_⟩
    rw [hfreq]
    exact lt_of_le_of_ne (leastListed_spec s.freqToFreqList_.entries int8Max).1 hcap

/-- `minFreq_` after an access that has found it right, or 1. -/
theorem addFreqNum_least {s t : RainLfu Key Value} {env : Env Key} (h : s.Linked)
    (hne : s.size ≠ 0) (hleast : s.MinFreqOk ∨ s.minFreq_ = 1) (ht : s.addFreqNum env = some t) :
    t.MinFreqOk ∨ t.minFreq_ = 1 := by
  by_cases hfires : s.AgingFires
  · obtain ⟨u, hu, hlinked, haged⟩ := addFreqNum_of_fires h hne env hfires
    rw [ht, Option.some.injEq] at hu
    subst hu
    have hsize : u.size ≠ 0 := by simpa [size, haged.nodeMap_eq] using hne
    exact updateMinFreq_cases hlinked hsize
  · rw [addFreqNum_of_not_fires env hfires, Option.some.injEq] at ht
    subst ht
    exact hleast

/-! ## §4 Hits -/

/-- A hit up to `addFreqNum`, also with a `minFreq_` of 1 that is wrong. -/
theorem Totalled.moves {s : RainLfu Key Value} (h : s.Totalled) {p : NodePtr} (hp : s.Resident p)
    (env : Env Key) :
    ∃ s₁ f, Relinked s p ((s.heap p).freq + 1) s₁ ∧ s₁.Linked ∧ 1 ≤ f ∧
      ((s₁.setMinFreq f).MinFreqOk ∨ f = 1 ∧ s.maxAverageNum_ = 1) ∧
      ∀ t, (s₁.setMinFreq f).addFreqNum env = some t →
        s.getInternal env p = some ((s.heap p).value, t) := by
  by_cases hok : s.MinFreqOk
  · obtain ⟨s₁, f, hrel, hlinked, hf, hmin, -, -, hget⟩ :=
      getInternal_moves h.linked hok h.minFreq_pos hp env
    exact ⟨s₁, f, hrel, hlinked, hf, .inl hmin, hget⟩
  · obtain ⟨hone, hmax⟩ := h.least.resolve_left hok
    have hpos := h.linked.freq_pos p hp
    -- nobody is at frequency 1, so the node does not come from the list of `minFreq_`
    have habove : (s.heap p).freq ≠ s.minFreq_ := by
      intro heq
      refine hok (h.minFreqOk_of_listed (List.ne_nil_of_mem (a := p) ?_))
      exact (h.linked.mem_nodesAt _ p).mpr ⟨hp, heq⟩
    obtain ⟨lists, s₁, hrem, hadd, hrel, hlinked⟩ :=
      relink h.linked hp (show 1 ≤ (s.heap p).freq + 1 by omega)
    have hmin : s₁.minFreq_ = s.minFreq_ := by
      rw [hrel.eq_rest]
      rfl
    have htest : s₁.leftMinList p = some false := by
      have hfreq : (s₁.heap p).freq - 1 ≠ s₁.minFreq_ := by
        rw [hrel.freq_self, hmin]
        omega
      rw [leftMinList, if_neg hfreq]
    refine ⟨s₁, 1, hrel, hlinked, le_refl 1, .inr ⟨rfl, hmax⟩, fun t ht => ?_⟩
    refine getInternal_eq hrem hadd htest ?_ ht
    rw [← hone, ← hmin]
    rfl

/-- **A hit** keeps the counters right exactly when it lowers no frequency. -/
theorem Totalled.hit {s : RainLfu Key Value} (h : s.Totalled) {p : NodePtr} (hp : s.Resident p)
    (env : Env Key) :
    ∃ t, s.getInternal env p = some ((s.heap p).value, t) ∧ (s.KeepsFreqs → t.Totalled) ∧
      (¬s.KeepsFreqs → ¬t.TotalsRight) := by
  obtain ⟨s₁, f, hrel, hlinked₁, hf, hleast₁, hget⟩ := h.moves hp env
  have hne : (s₁.setMinFreq f).size ≠ 0 := by
    show s₁.size ≠ 0
    rw [hrel.size_eq, size_eq_length_nodePtrs]
    exact Nat.ne_of_gt (List.length_pos_of_mem hp)
  obtain ⟨t, ht, hlinked, hmap, hcap, hmax, hpos, -⟩ :=
    addFreqNum_spec (hlinked₁.setMinFreq f) hne hf env
  obtain ⟨htotal, haverage⟩ := addFreqNum_average hmap ht
  have hfires := hrel.agingFires_setMinFreq_iff f
  have hmax_s : t.maxAverageNum_ = s.maxAverageNum_ := hmax.trans hrel.maxAverageNum_eq
  have hsize : t.size = s.size := by
    rw [size, hmap]
    exact hrel.size_eq
  have htotal_s : t.curTotalNum_ = s.freqSum + 1 := by
    rw [htotal, ← h.right.1]
    exact congrArg (· + 1) hrel.total_eq
  -- the move itself books its node
  have hsum : (s₁.setMinFreq f).freqSum = s.freqSum + 1 := by
    have hptrs : s₁.nodePtrs = s.nodePtrs := by
      rw [nodePtrs, hrel.nodeMap_eq]
      rfl
    rw [← sum_hitFreq h.linked.nodup_nodePtrs hp, ← hptrs]
    exact congrArg List.sum (List.map_congr_left fun q _ => hrel.freq_eq_hitFreq q)
  refine ⟨t, hget t ht, fun hkeeps => ?_, fun hnot => ?_⟩
  · -- no frequency is lowered: the sum has grown by the hit alone
    have hkeeps₁ : (s₁.setMinFreq f).KeepsFreqs := fun hx =>
      hrel.maxAverageNum_eq.trans (hkeeps (hfires.mp hx))
    have hsame := addFreqNum_sameFreqs (hlinked₁.setMinFreq f).freq_pos hkeeps₁ ht
    refine ⟨hlinked, ?_, ?_, ?_, hpos, ?_, ?_, ?_⟩
    · rw [hcap]
      exact hrel.capacity_eq ▸ h.capacity_pos
    · exact hmax_s ▸ h.maxAverageNum_pos
    · rw [hsize, hcap]
      exact hrel.capacity_eq ▸ h.size_le
    · rw [hmax_s]
      rcases Classical.em s.AgingFires with hyes | hquiet
      · have hleast := addFreqNum_least (hlinked₁.setMinFreq f) hne
          (hleast₁.imp id And.left) ht
        exact hleast.imp id fun hone => ⟨hone, hkeeps hyes⟩
      · rw [addFreqNum_of_not_fires env (fun hx => hquiet (hfires.mp hx)), Option.some.injEq] at ht
        subst ht
        exact hleast₁
    · rw [totalsRight_iff haverage, htotal_s, hsame.freqSum_eq, hsum]
    · rw [hmax_s]
      rcases Classical.em s.AgingFires with hyes | hquiet
      · exact .inl (hkeeps hyes)
      · right
        have hle := not_lt.mp hquiet
        rw [averageOf] at hle ⊢
        rw [hsize, htotal_s, ← h.right.1]
        exact hle
  · -- the pass lowers at least the node that was hit, and does not tell the total
    obtain ⟨hyes, hmax_ne⟩ := Classical.not_imp.mp hnot
    have htwo : 2 ≤ s.maxAverageNum_ := by
      have hone := h.maxAverageNum_pos
      omega
    have hhigh : 2 ≤ ((s₁.setMinFreq f).heap p).freq := by
      show 2 ≤ (s₁.heap p).freq
      have hpos_p := h.linked.freq_pos p hp
      rw [hrel.freq_self]
      omega
    have hlt := addFreqNum_freqSum_lt (hlinked₁.setMinFreq f) hf (hfires.mpr hyes)
      (hrel.maxAverageNum_eq ▸ htwo) ((hrel.resident_iff p).mpr hp) hhigh ht
    rw [totalsRight_iff haverage]
    omega

/-! ## §5 Insertions -/

/-- What a `put` of a new key does to the counters, once there is room. -/
structure CountsNew (s t : RainLfu Key Value) : Prop where
  total : t.curTotalNum_ = s.curTotalNum_ + 1
  sum : t.freqSum = s.freqSum + 1
  average : t.curAverageNum_ = t.averageOf t.curTotalNum_
  size : t.size = s.size + 1
  maximum : t.maxAverageNum_ = s.maxAverageNum_

/-- An insertion that lowers no frequency. The lists may be in any state. -/
theorem insertNew_counts {s t : RainLfu Key Value} {env : Env Key} {key : Key} {value : Value}
    (holder : ∀ p, s.Resident p → p < s.fresh)
    (hpos : ∀ p, s.Resident p → 1 ≤ (s.heap p).freq) (hkey : s.nodeMap_.lookup key = none)
    (hkeeps : (s.makeNode key value).KeepsFreqs) (ht : s.insertNew env key value = some t) :
    CountsNew s t := by
  obtain ⟨s₁, hadd, hrest⟩ := Option.bind_eq_some_iff.mp ht
  obtain ⟨lists, rfl⟩ := exists_setLists_of_add hadd
  obtain ⟨s₂, hcount, hdone⟩ := Option.bind_eq_some_iff.mp hrest
  cases hdone
  have hmade : ∀ p, (s.makeNode key value).Resident p →
      1 ≤ ((s.makeNode key value).heap p).freq := by
    intro p hp
    rcases (resident_makeNode value hkey p).mp hp with rfl | hold
    · simp
    · have hne : p ≠ s.fresh := Nat.ne_of_lt (holder p hold)
      simpa [hne] using hpos p hold
  have hsame := addFreqNum_sameFreqs (s := (s.makeNode key value).setLists lists) hmade hkeeps
    hcount
  obtain ⟨htotal, haverage⟩ := addFreqNum_average hsame.nodeMap_eq hcount
  refine ⟨htotal, ?_, haverage, ?_, hsame.maxAverageNum_eq⟩
  · rw [← freqSum_makeNode holder value hkey]
    exact hsame.freqSum_eq
  · rw [← size_makeNode value hkey]
    show s₂.size = _
    rw [RainLfu.size, hsame.nodeMap_eq]
    rfl

/-- A cache that is ready for a new node. -/
structure Ready (s : RainLfu Key Value) : Prop where
  linked : s.Linked
  minFreq_pos : 1 ≤ s.minFreq_
  maxAverageNum_pos : 1 ≤ s.maxAverageNum_
  room : (s.size : Int) < s.capacity_
  total : s.curTotalNum_ = s.freqSum
  quiet : s.maxAverageNum_ = 1 ∨ s.curTotalNum_ + 1 < (s.maxAverageNum_ + 1) * (s.size + 1)

/-- The insertion that follows. -/
theorem Ready.insertNew {s : RainLfu Key Value} (h : s.Ready) {key : Key} (value : Value)
    (hkey : s.nodeMap_.lookup key = none) (env : Env Key) :
    ∃ t, s.insertNew env key value = some t ∧ t.Totalled := by
  have hmax := h.maxAverageNum_pos
  have hcap : 1 ≤ s.capacity_ := by
    have hroom := h.room
    omega
  obtain ⟨s₁, t, hadd, hcount, hinv⟩ :=
    insert_spec h.linked h.minFreq_pos hcap hmax h.room value hkey env
  have hinsert : s.insertNew env key value = some (t.setMinFreq (min t.minFreq_ 1)) := by
    simp only [RainLfu.insertNew, hadd, Option.bind_eq_bind, Option.bind_some, hcount]
  have htotal : 0 ≤ s.curTotalNum_ + 1 :=
    Int.add_nonneg (h.total ▸ freqSum_nonneg h.linked.freq_pos) (by decide)
  -- the average of the new total is not above the maximum, so no pass starts
  have hkeeps : (s.makeNode key value).KeepsFreqs := by
    intro hfires
    refine h.quiet.resolve_right fun hlt => ?_
    refine absurd hfires (not_lt.mpr ((averageOf_le_iff (by exact htotal)
      (by exact hmax.trans' (by decide))).mpr ?_))
    rw [size_makeNode value hkey]
    exact .inr (by exact_mod_cast hlt)
  have hcounts := insertNew_counts h.linked.older h.linked.freq_pos hkey hkeeps hinsert
  refine ⟨_, hinsert, hinv.linked, hinv.capacity_pos, hinv.maxAverageNum_pos, hinv.size_le,
    hinv.minFreq_pos, .inl hinv.minFreqOk, ?_, ?_⟩
  · rw [totalsRight_iff hcounts.average, hcounts.total, hcounts.sum, h.total]
  · rw [hcounts.maximum, averageOf_le_iff (hcounts.total ▸ htotal) (hmax.trans' (by decide)),
      hcounts.size, hcounts.total]
    exact h.quiet.imp id fun hlt => .inr (by exact_mod_cast hlt)

/-- A cache with a free place is ready. -/
theorem Totalled.ready {s : RainLfu Key Value} (h : s.Totalled)
    (hroom : (s.size : Int) < s.capacity_) : s.Ready := by
  refine ⟨h.linked, h.minFreq_pos, h.maxAverageNum_pos, hroom, h.right.1, ?_⟩
  have hmax := h.maxAverageNum_pos
  refine h.quiet.imp id fun hle => ?_
  rcases (averageOf_le_iff h.total_nonneg (by omega)).mp hle with hzero | hlt
  · have htotal : s.curTotalNum_ = 0 := by
      rw [size_eq_length_nodePtrs, List.length_eq_zero_iff] at hzero
      rw [h.right.1, freqSum, hzero]
      rfl
    rw [htotal, hzero]
    omega
  · rw [mul_add]
    omega

/-- A full cache is ready after it has evicted a node of the list of `minFreq_`. -/
theorem Totalled.evict {s : RainLfu Key Value} (h : s.Totalled)
    (hfull : (s.size : Int) = s.capacity_) (hlisted : s.nodesAt s.minFreq_ ≠ []) (env : Env Key) :
    ∃ t, s.kickOut env = some t ∧ t.Ready ∧
      ∀ key, s.nodeMap_.lookup key = none → t.nodeMap_.lookup key = none := by
  have hne : s.size ≠ 0 := by
    have hpos := h.capacity_pos
    omega
  obtain ⟨p, t, hkick, hev, hlinked, hcap, hmax, hmin⟩ :=
    kickOut_spec h.linked (h.minFreqOk_of_listed hlisted) hne env
  -- `kickOut` books the frequency of the node that it takes
  have htotal := kickOut_total hkick hev.first
  have hfreq := h.linked.freq_pos p hev.resident
  have hsum := freqSum_of_resident_iff h.linked.nodup_nodePtrs hlinked.nodup_nodePtrs
    (kickOut_heap hkick) hev.resident hev.resident_iff
  have hright := h.right.1
  have hsize : (t.size : Int) + 1 = s.size := by exact_mod_cast hev.size_eq
  refine ⟨t, hkick, ⟨hlinked, hmin ▸ h.minFreq_pos, hmax ▸ h.maxAverageNum_pos, by omega,
    by omega, ?_⟩, fun key hkey => hev.lookup_none hkey⟩
  rw [hmax, hsize]
  refine h.quiet.imp id fun hle => ?_
  have hmax_pos := h.maxAverageNum_pos
  have hlt := ((averageOf_le_iff h.total_nonneg (by omega)).mp hle).resolve_left hne
  omega

/-! ## §6 The sentinel -/

/-- Erasing an entry takes nothing off the sum, or the frequency of a resident. -/
theorem freqSum_eraseKey {s : RainLfu Key Value} (h : s.Linked) (key : Key) :
    (s.eraseKey key).freqSum = s.freqSum ∨
      ∃ p, s.Resident p ∧ (s.eraseKey key).freqSum + (s.heap p).freq = s.freqSum := by
  cases hlook : s.nodeMap_.lookup key with
  | none =>
    left
    have hentries : (s.nodeMap_.erase key).entries = s.nodeMap_.entries :=
      List.kerase_of_notMem_keys (AList.lookup_eq_none.mp hlook)
    have hptrs : (s.eraseKey key).nodePtrs = s.nodePtrs := by
      rw [nodePtrs, eraseKey_nodeMap_, hentries]
      rfl
    rw [freqSum, hptrs]
    rfl
  | some p =>
    right
    have hp : s.Resident p := (resident_iff s p).mpr ⟨key, hlook⟩
    have hnodup : (s.eraseKey key).nodePtrs.Nodup := by
      refine h.nodup_nodePtrs.sublist ?_
      exact (List.kerase_sublist key s.nodeMap_.entries).map _
    refine ⟨p, hp, freqSum_of_resident_iff h.nodup_nodePtrs hnodup rfl hp ?_⟩
    have hkey := h.keyed key p hlook
    rw [← hkey]
    exact resident_eraseKey h hp

/-- When the list of the least frequency is empty, room is made at the key of its sentinel. -/
theorem makeRoom_of_empty {s t : RainLfu Key Value} {env : Env Key}
    (hfull : (s.size : Int) = s.capacity_) (hempty : s.nodesAt s.minFreq_ = [])
    (ht : s.makeRoom env = some t) : t = (s.eraseKey env.sentinelKey).decreaseFreqNum 1 := by
  rw [makeRoom, if_pos hfull] at ht
  obtain ⟨l, hl, hkick⟩ := Option.bind_eq_some_iff.mp ht
  have hnodes : l.nodes = [] := by
    rw [nodesAt, hl] at hempty
    exact hempty
  have hfirst : l.getFirstNode = none := by
    rw [FreqList.getFirstNode, hnodes]
    rfl
  rw [hfirst] at hkick
  obtain ⟨-, -, hs₁⟩ := Option.bind_eq_some_iff.mp hkick
  cases hs₁
  rfl

/-- **A `put` that kicks out a sentinel.** The total loses 1, but no resident of frequency 1 has
    left. -/
theorem Totalled.putInternal_sentinel {s t : RainLfu Key Value} (h : s.Totalled) {key : Key}
    {value : Value} (hkey : s.nodeMap_.lookup key = none) {env : Env Key}
    (hfull : (s.size : Int) = s.capacity_) (hempty : s.nodesAt s.minFreq_ = [])
    (ht : s.putInternal env key value = some t) : ¬t.TotalsRight := by
  have hne : s.size ≠ 0 := by
    have hpos := h.capacity_pos
    omega
  obtain ⟨hone, hmax⟩ := h.minFreq_eq_one hne hempty
  rw [putInternal_eq] at ht
  obtain ⟨s₁, hroom, hinsert⟩ := Option.bind_eq_some_iff.mp ht
  rw [makeRoom_of_empty hfull hempty hroom] at hinsert
  have hres : ∀ p, (s.eraseKey env.sentinelKey).Resident p → s.Resident p := by
    intro p hp
    exact ((List.kerase_sublist env.sentinelKey s.nodeMap_.entries).map _).subset hp
  have hkey₁ := lookup_erase_eq_none hkey env.sentinelKey
  have hcounts := insertNew_counts (s := (s.eraseKey env.sentinelKey).decreaseFreqNum 1)
    (fun p hp => h.linked.older p (hres p hp)) (fun p hp => h.linked.freq_pos p (hres p hp)) hkey₁
    (fun _ => hmax) hinsert
  have htotal : t.curTotalNum_ = s.curTotalNum_ - 1 + 1 := hcounts.total
  have hsum : t.freqSum = (s.eraseKey env.sentinelKey).freqSum + 1 := hcounts.sum
  have hright := h.right.1
  rw [totalsRight_iff hcounts.average]
  rcases freqSum_eraseKey h.linked env.sentinelKey with hsame | ⟨p, hp, hless⟩
  · omega
  · -- the list of frequency 1 is empty, so the erased resident was above it
    have hhigh : (s.heap p).freq ≠ 1 := by
      intro heq
      have hmem := (h.linked.mem_nodesAt _ p).mpr ⟨hp, heq.trans hone.symm⟩
      rw [hempty] at hmem
      cases hmem
    omega

/-! ## §7 Runs -/

theorem Totalled.setValue {s : RainLfu Key Value} (h : s.Totalled) (p : NodePtr) (v : Value) :
    (s.setValue p v).Totalled := by
  have hfreq := fun q => freq_setValue s p q v
  have hsame : s.SameFreqs (s.setValue p v) := ⟨rfl, rfl, hfreq⟩
  refine ⟨h.linked.setValue p v, h.capacity_pos, h.maxAverageNum_pos, h.size_le, h.minFreq_pos,
    ?_, ?_, h.quiet⟩
  · refine h.least.imp (fun hok hne => ?_) id
    obtain ⟨⟨q, hq, heq⟩, hlow⟩ := hok hne
    exact ⟨⟨q, hq, (hfreq q).trans heq⟩, fun r hr => (hfreq r).symm ▸ hlow r hr⟩
  · unfold TotalsRight
    rw [hsame.freqSum_eq]
    exact h.right

/-- **A `put` of a new key** keeps the counters right exactly when it kicks out no sentinel. -/
theorem Totalled.putInternal {s : RainLfu Key Value} (h : s.Totalled) {key : Key} (value : Value)
    (hkey : s.nodeMap_.lookup key = none) (env : Env Key)
    (hlisted : (s.size : Int) = s.capacity_ → s.nodesAt s.minFreq_ ≠ []) :
    ∃ t, s.putInternal env key value = some t ∧ t.Totalled := by
  by_cases hfull : (s.size : Int) = s.capacity_
  · obtain ⟨s₁, hkick, hready, hnone⟩ := h.evict hfull (hlisted hfull) env
    obtain ⟨t, ht, htotalled⟩ := hready.insertNew value (hnone key hkey) env
    refine ⟨t, ?_, htotalled⟩
    rw [putInternal_eq, makeRoom, if_pos hfull, hkick]
    exact ht
  · obtain ⟨t, ht, htotalled⟩ :=
      (h.ready (lt_of_le_of_ne h.size_le hfull)).insertNew value hkey env
    refine ⟨t, ?_, htotalled⟩
    rw [putInternal_eq, makeRoom, if_neg hfull]
    exact ht

/-- `purge` leaves the total. -/
theorem Totalled.purge_iff {s : RainLfu Key Value} (h : s.Totalled) :
    (s.size = 0 → s.purge.Totalled) ∧ (s.size ≠ 0 → ¬s.purge.TotalsRight) := by
  have hsize : s.purge.size = 0 := rfl
  have hsum : s.purge.freqSum = 0 := rfl
  refine ⟨fun hzero => ?_, fun hne hright => ?_⟩
  · have hnil : s.nodePtrs = [] := by
      rwa [size_eq_length_nodePtrs, List.length_eq_zero_iff] at hzero
    have htotal : s.freqSum = 0 := by
      rw [freqSum, hnil]
      rfl
    -- an empty cache has an empty total
    refine ⟨linked_of_empty rfl rfl, h.capacity_pos, h.maxAverageNum_pos, ?_, h.minFreq_pos,
      .inl fun hne => absurd hsize hne, ⟨h.right.1.trans htotal, ?_⟩, .inr ?_⟩
    · rw [hsize]
      exact Int.le_trans (by decide) h.capacity_pos
    · have haverage := h.right.2
      rw [averageOf, if_pos hzero] at haverage
      exact haverage
    · exact (averageOf_le_iff h.total_nonneg (h.maxAverageNum_pos.trans' (by decide))).mpr
        (.inl hsize)
  · -- a resident has at least frequency 1
    obtain ⟨p, hp⟩ := exists_resident_of_size_ne_zero hne
    have hpos := h.linked.freq_pos p hp
    have hle := freq_le_freqSum h.linked.freq_pos hp
    have htotal : s.curTotalNum_ = 0 := hright.1.trans hsum
    have hbooked := h.right.1
    omega

/-- **One operation** keeps the counters right exactly under its condition. -/
theorem Totalled.apply {s : RainLfu Key Value} (h : s.Totalled) (env : Env Key)
    (op : Op Key Value) :
    (s.KeepsTotals op → ∃ t, s.apply env op = some t ∧ t.Totalled) ∧
      (¬s.KeepsTotals op → ∀ t, s.apply env op = some t → ¬t.TotalsRight) := by
  have hcap : s.capacity_ ≠ 0 := by
    have hpos := h.capacity_pos
    omega
  cases op with
  | put key value =>
    cases hlook : s.nodeMap_.lookup key with
    | some p =>
      -- the key is there: a hit, after its value was stored
      have hp : s.Resident p := (resident_iff s p).mpr ⟨key, hlook⟩
      obtain ⟨t, ht, hgood, hbad⟩ := (h.setValue p value).hit (by exact hp) env
      have happly : s.apply env (.put key value) = some t := by
        simp only [RainLfu.apply, put, if_neg hcap, hlook, ht, Option.map_some]
      have hcond : s.KeepsTotals (.put key value) ↔ s.KeepsFreqs := by
        simp only [KeepsTotals, hlook, Option.isSome_some, if_true]
      rw [hcond, happly]
      exact ⟨fun hkeeps => ⟨t, rfl, hgood hkeeps⟩, fun hnot u hu => Option.some.inj hu ▸ hbad hnot⟩
    | none =>
      -- a new key, for which room may have to be made
      have happly : s.apply env (.put key value) = s.putInternal env key value := by
        simp only [RainLfu.apply, put, if_neg hcap, hlook]
      have hcond : s.KeepsTotals (.put key value) ↔
          ((s.size : Int) = s.capacity_ → s.nodesAt s.minFreq_ ≠ []) := by
        simp [KeepsTotals, hlook]
      rw [hcond, happly]
      refine ⟨h.putInternal value hlook env, fun hnot t ht => ?_⟩
      obtain ⟨hfull, hempty⟩ := Classical.not_imp.mp hnot
      exact h.putInternal_sentinel hlook hfull (not_not.mp hempty) ht
  | get key =>
    cases hlook : s.nodeMap_.lookup key with
    | some p =>
      have hp : s.Resident p := (resident_iff s p).mpr ⟨key, hlook⟩
      obtain ⟨t, ht, hgood, hbad⟩ := h.hit hp env
      have happly : s.apply env (.get key) = some t := by
        simp only [RainLfu.apply, get, hlook, ht, Option.map_some]
      have hcond : s.KeepsTotals (.get key) ↔ s.KeepsFreqs := by
        simp only [KeepsTotals, hlook, Option.isSome_some, if_true]
      rw [hcond, happly]
      exact ⟨fun hkeeps => ⟨t, rfl, hgood hkeeps⟩, fun hnot u hu => Option.some.inj hu ▸ hbad hnot⟩
    | none =>
      -- a miss counts nothing
      have happly : s.apply env (.get key) = some s := by
        simp only [RainLfu.apply, get, hlook, Option.map_some]
      have hcond : s.KeepsTotals (.get key) := by
        simp [KeepsTotals, hlook]
      exact ⟨fun _ => ⟨s, happly, h⟩, fun hnot => absurd hcond hnot⟩
  | purge =>
    refine ⟨fun hzero => ⟨s.purge, rfl, h.purge_iff.1 hzero⟩, fun hne t ht => ?_⟩
    cases ht
    exact h.purge_iff.2 hne

theorem totalled_new [Inhabited Key] [Inhabited Value] {capacity : Int} (hcap : 1 ≤ capacity)
    {maxAverageNum : Int} (hmax : 1 ≤ maxAverageNum) :
    (new capacity maxAverageNum : RainLfu Key Value).Totalled := by
  have hinv : (new capacity maxAverageNum : RainLfu Key Value).Inv := inv_new hcap hmax
  exact ⟨hinv.linked, hcap, hmax, hinv.size_le, hinv.minFreq_pos, .inl hinv.minFreqOk,
    ⟨rfl, rfl⟩, .inr ((averageOf_le_iff le_rfl (hmax.trans' (by decide))).mpr (.inl rfl))⟩

/-- **The total and the average are right throughout a run if and only if no hit of it starts an
    aging pass that lowers frequencies, and no `put` kicks out a sentinel.** -/
theorem totalsRight_throughout_iff [Inhabited Key] [Inhabited Value]
    (capacity maxAverageNum : Int) (hcap : 1 ≤ capacity) (hmax : 1 ≤ maxAverageNum)
    (ops : List (Op Key Value × Env Key)) :
    Throughout call TotalsRight (new capacity maxAverageNum : RainLfu Key Value) ops ↔
      EveryStep call (fun s c => s.KeepsTotals c.1)
        (new capacity maxAverageNum : RainLfu Key Value) ops :=
  throughout_iff (fun _ h => h.right) (fun _ c h => (h.apply c.2 c.1).1)
    (fun _ c h => (h.apply c.2 c.1).2) (totalled_new hcap hmax) ops

end Keyed

/-- A key is put and hit twice. -/
def twoHits : List (Op Nat Nat × Env Nat) :=
  [.put 0 7, .get 0, .get 0].map fun op => (op, plainEnv 0)

/-- Two hits on one key stay within an average of 3. -/
theorem totalsRight_put_get_get : Throughout call TotalsRight (new 1 3 : RainLfu Nat Nat) twoHits :=
  (totalsRight_throughout_iff 1 3 (by decide) (by decide) twoHits).mpr (by decide +kernel)

/-- Within an average of 2 the second hit starts an aging pass, which lowers the frequency to 2 and
    leaves the total at 3. -/
theorem total_stays_after_aging :
    ¬ ∀ (capacity maxAverageNum : Int) (ops : List (Op Nat Nat × Env Nat)),
      1 ≤ capacity → 1 ≤ maxAverageNum → ops.length < 2 ^ 31 → (∀ c ∈ ops, c.1 ≠ .purge) →
      Throughout call TotalsRight (new capacity maxAverageNum : RainLfu Nat Nat) ops := by
  intro hall
  have hrun := hall 1 2 twoHits (by decide) (by decide) (by decide) (by decide)
  exact absurd hrun (by decide +kernel)

end RainLfu

end RainWebServer.Util
