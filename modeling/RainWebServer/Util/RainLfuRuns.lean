import RainWebServer.Util.RainLfuMinFreq

/-!
# RainLfu: Operations and Runs

One lemma for each operation (`getInternal_spec`, `kickOut_spec`, `insert_spec`), one for
an arbitrary operation (`apply_spec`), and by induction over the operations the exact
condition under which a whole run keeps the cache right (`runGood_iff`).
-/

namespace RainWebServer.Util

namespace RainLfu

variable {Key Value : Type} [DecidableEq Key]

/-! ## §1 Hits -/

/-- The frequencies after a hit on `p`, before the access is counted. -/
def hitFreq (s : RainLfu Key Value) (p q : NodePtr) : Int :=
  (s.heap q).freq + if q = p then 1 else 0

/-- If the hit on `p` starts an aging pass, it leaves some resident below `INT8_MAX`. -/
def HitBelowCap (s : RainLfu Key Value) (p : NodePtr) : Prop :=
  s.AgingFires →
    ∃ q, s.Resident q ∧ agedFreq s.maxAverageNum_ (s.hitFreq p q) < int8Max

omit [DecidableEq Key] in
theorem Relinked.freq_eq_hitFreq {s t : RainLfu Key Value} {p : NodePtr}
    (h : Relinked s p ((s.heap p).freq + 1) t) (q : NodePtr) :
    (t.heap q).freq = s.hitFreq p q := by
  by_cases hq : q = p
  · subst hq
    simp [hitFreq, h.freq_self]
  · simp [hitFreq, hq, h.heap_other hq]

omit [DecidableEq Key] in
/-- A hit puts no resident below a frequency that all of them had. -/
theorem Relinked.le_freq {s t : RainLfu Key Value} {p : NodePtr}
    (h : Relinked s p ((s.heap p).freq + 1) t) {f : Int}
    (hlow : ∀ q, s.Resident q → f ≤ (s.heap q).freq) {q : NodePtr} (hq : t.Resident q) :
    f ≤ (t.heap q).freq := by
  have hle := hlow q ((h.resident_iff q).mp hq)
  rw [h.freq_eq_hitFreq, hitFreq]
  split <;> omega

omit [DecidableEq Key] in
/-- Moving a node and setting `minFreq_` leave the average alone. -/
theorem Relinked.agingFires_setMinFreq_iff {s t : RainLfu Key Value} {p : NodePtr} {g : Int}
    (h : Relinked s p g t) (f : Int) : (t.setMinFreq f).AgingFires ↔ s.AgingFires := by
  have hsize : (t.setMinFreq f).size = s.size := h.size_eq
  simp only [AgingFires, averageOf, hsize, setMinFreq_curTotalNum_, setMinFreq_maxAverageNum_,
    h.maxAverageNum_eq, h.total_eq]

/-- `minFreq_` follows the node when it was the last one of the least frequency. -/
theorem leftMinList_spec {s t : RainLfu Key Value} (h : s.Linked) (hmin : s.MinFreqOk)
    (hpos : 1 ≤ s.minFreq_) {p : NodePtr} (hp : s.Resident p)
    (hrel : Relinked s p ((s.heap p).freq + 1) t) (ht : t.Linked) :
    ∃ moved f, t.leftMinList p = some moved ∧
      (if moved then t.setMinFreq (t.minFreq_ + 1) else t) = t.setMinFreq f ∧
      1 ≤ f ∧ (t.setMinFreq f).MinFreqOk := by
  have hmin_eq : t.minFreq_ = s.minFreq_ := by rw [hrel.eq_rest]; rfl
  have hne : s.size ≠ 0 := by
    rw [size_eq_length_nodePtrs]
    exact Nat.ne_of_gt (List.length_pos_of_mem hp)
  obtain ⟨⟨q₀, hq₀, hfreq₀⟩, hlow⟩ := hmin hne
  have hprev : (t.heap p).freq - 1 = (s.heap p).freq := by rw [hrel.freq_self]; omega
  have hstay : ∀ q, q ≠ p → (t.heap q).freq = (s.heap q).freq := fun q hq => by
    rw [hrel.heap_other hq]
  by_cases hleft : (s.heap p).freq = s.minFreq_
  · -- the node was of least frequency: is its old list empty now?
    obtain ⟨l₀, hl₀, -⟩ := listAt_of_mem_nodesAt (h.mem_own hp)
    have hkept : (t.listAt (s.heap p).freq).isSome := hrel.kept _ (by rw [hl₀]; rfl)
    obtain ⟨l, hl⟩ := Option.isSome_iff_exists.mp hkept
    have hnodes : t.nodesAt (s.heap p).freq = l.nodes := by simp [nodesAt, hl]
    have htest : t.leftMinList p = some l.isEmpty := by
      simp only [leftMinList, hprev, hmin_eq, if_pos hleft, hl, Option.map_some]
    cases hempty : l.isEmpty with
    | true =>
      -- nobody is left there, and the moved node itself is at the next frequency
      have hnil : t.nodesAt s.minFreq_ = [] := by
        rw [← hleft, hnodes]
        simpa [FreqList.isEmpty] using hempty
      refine ⟨true, s.minFreq_ + 1, by rw [htest, hempty], by rw [if_pos rfl, hmin_eq],
        by omega, fun _ => ⟨⟨p, (hrel.resident_iff p).mpr hp, ?_⟩, fun q hq => ?_⟩⟩
      · show (t.heap p).freq = s.minFreq_ + 1
        rw [hrel.freq_self, hleft]
      · show s.minFreq_ + 1 ≤ (t.heap q).freq
        have hq' : t.Resident q := hq
        have hnot : (t.heap q).freq ≠ s.minFreq_ := by
          intro heq
          have hmem := (ht.mem_nodesAt s.minFreq_ q).mpr ⟨hq', heq⟩
          rw [hnil] at hmem
          exact absurd hmem (by simp)
        by_cases hqp : q = p
        · subst hqp
          rw [hrel.freq_self, hleft]
        · have := hlow q ((hrel.resident_iff q).mp hq')
          rw [hstay q hqp] at hnot ⊢
          omega
    | false =>
      -- whoever is left there keeps `minFreq_` attained
      obtain ⟨q, hq⟩ : ∃ q, q ∈ l.nodes :=
        List.exists_mem_of_ne_nil _ (by simpa [FreqList.isEmpty] using hempty)
      rw [← hnodes, ht.mem_nodesAt] at hq
      refine ⟨false, s.minFreq_, by rw [htest, hempty], ?_, hpos,
        fun _ => ⟨⟨q, hq.1, ?_⟩, fun r hr => ?_⟩⟩
      · simp [← hmin_eq, setMinFreq]
      · show (t.heap q).freq = s.minFreq_
        rw [hq.2, hleft]
      · exact hrel.le_freq hlow hr
  · -- the node was above `minFreq_`, so the resident that attains it has stayed
    have hq₀p : q₀ ≠ p := fun heq => hleft (heq ▸ hfreq₀)
    refine ⟨false, s.minFreq_, ?_, ?_, hpos, fun _ => ⟨⟨q₀, (hrel.resident_iff q₀).mpr hq₀, ?_⟩,
      fun r hr => ?_⟩⟩
    · simp [leftMinList, hprev, hmin_eq, hleft]
    · simp [← hmin_eq, setMinFreq]
    · show (t.heap q₀).freq = s.minFreq_
      rw [hstay q₀ hq₀p, hfreq₀]
    · exact hrel.le_freq hlow hr

omit [DecidableEq Key] in
/-- `getInternal`, put together from its steps. -/
theorem getInternal_eq {s s₁ t : RainLfu Key Value} {p : NodePtr} {env : Env Key} {f : Int}
    {lists : AList (fun _ : Int => Option FreqList)} {moved : Bool}
    (hrem : s.removeFromFreqList p = some (s.setLists lists))
    (hadd : ((s.setLists lists).setFreq p ((s.heap p).freq + 1)).addToFreqList p = some s₁)
    (htest : s₁.leftMinList p = some moved)
    (hset : (if moved then s₁.setMinFreq (s₁.minFreq_ + 1) else s₁) = s₁.setMinFreq f)
    (ht : (s₁.setMinFreq f).addFreqNum env = some t) :
    s.getInternal env p = some ((s.heap p).value, t) := by
  simp only [getInternal, hrem, Option.bind_eq_bind, Option.bind_some, setLists_heap]
  rw [hadd]
  simp only [Option.bind_some, htest, hset, ht]

/-- A hit up to `addFreqNum`: the node is in the list of the next frequency, and `minFreq_` has
    been corrected. -/
theorem getInternal_moves {s : RainLfu Key Value} (h : s.Linked) (hmin : s.MinFreqOk)
    (hpos : 1 ≤ s.minFreq_) {p : NodePtr} (hp : s.Resident p) (env : Env Key) :
    ∃ s₁ f, Relinked s p ((s.heap p).freq + 1) s₁ ∧ s₁.Linked ∧ 1 ≤ f ∧
      (s₁.setMinFreq f).MinFreqOk ∧ (s₁.setMinFreq f).size ≠ 0 ∧
      ((s₁.setMinFreq f).AgingFires ↔ s.AgingFires) ∧
      ∀ t, (s₁.setMinFreq f).addFreqNum env = some t →
        s.getInternal env p = some ((s.heap p).value, t) := by
  have hpos_freq : 1 ≤ (s.heap p).freq + 1 := by
    have := h.freq_pos p hp
    omega
  obtain ⟨lists, s₁, hrem, hadd, hrel, hlinked₁⟩ := relink h hp hpos_freq
  obtain ⟨moved, f, htest, hset, hf, hmin₁⟩ := leftMinList_spec h hmin hpos hp hrel hlinked₁
  have hsize : (s₁.setMinFreq f).size = s.size := hrel.size_eq
  refine ⟨s₁, f, hrel, hlinked₁, hf, hmin₁, ?_, hrel.agingFires_setMinFreq_iff f,
    fun t ht => getInternal_eq hrem hadd htest hset ht⟩
  rw [hsize, size_eq_length_nodePtrs]
  exact Nat.ne_of_gt (List.length_pos_of_mem hp)

/-- A hit returns the node's value, and keeps `minFreq_` right exactly under `HitBelowCap`. -/
theorem getInternal_spec {s : RainLfu Key Value} (h : s.Linked) (hmin : s.MinFreqOk)
    (hpos : 1 ≤ s.minFreq_) {p : NodePtr} (hp : s.Resident p) (env : Env Key) :
    ∃ t, s.getInternal env p = some ((s.heap p).value, t) ∧ t.Linked ∧
      t.nodeMap_ = s.nodeMap_ ∧ t.capacity_ = s.capacity_ ∧
      t.maxAverageNum_ = s.maxAverageNum_ ∧ 1 ≤ t.minFreq_ ∧
      (t.MinFreqOk ↔ s.HitBelowCap p) := by
  obtain ⟨s₁, f, hrel, hlinked₁, hf, hmin₁, hne, hfires, hget⟩ :=
    getInternal_moves h hmin hpos hp env
  obtain ⟨t, ht, hlinked, hmap, hcap, htmax, htpos, hquiet, haging⟩ :=
    addFreqNum_spec (hlinked₁.setMinFreq f) hne hf env
  refine ⟨t, hget t ht, hlinked, hmap.trans hrel.nodeMap_eq, hcap.trans hrel.capacity_eq,
    htmax.trans hrel.maxAverageNum_eq, htpos, ?_⟩
  by_cases hf' : s.AgingFires
  · -- `updateMinFreq` starts at `INT8_MAX`: it is right if the aged cache has somebody below
    have hmax : (s₁.setMinFreq f).maxAverageNum_ = s.maxAverageNum_ := hrel.maxAverageNum_eq
    rw [(haging (hfires.mpr hf')).2, hmax]
    constructor
    · rintro ⟨q, hq, hlt⟩ -
      refine ⟨q, (hrel.resident_iff q).mp hq, ?_⟩
      rw [← hrel.freq_eq_hitFreq]
      exact hlt
    · intro hbelow
      obtain ⟨q, hq, hlt⟩ := hbelow hf'
      refine ⟨q, (hrel.resident_iff q).mpr hq, ?_⟩
      rw [← hrel.freq_eq_hitFreq] at hlt
      exact hlt
  · rw [(hquiet (fun hx => hf' (hfires.mp hx))).1]
    exact ⟨fun _ hx => absurd hx hf', fun _ => hmin₁⟩

omit [DecidableEq Key] in
/-- A stored value plays no part in a frequency. -/
theorem freq_setValue (s : RainLfu Key Value) (p q : NodePtr) (v : Value) :
    ((s.setValue p v).heap q).freq = (s.heap q).freq := by
  rcases Nat.decEq q p with hq | rfl
  · simp [hq]
  · simp

/-- Storing a new value in a node leaves the links alone. -/
theorem Linked.setValue {s : RainLfu Key Value} (h : s.Linked) (p : NodePtr) (v : Value) :
    (s.setValue p v).Linked := by
  have hkey : ∀ q, ((s.setValue p v).heap q).key = (s.heap q).key := by
    intro q
    by_cases hq : q = p
    · subst hq
      simp
    · simp [hq]
  refine ⟨fun k q hk => ?_, h.older, fun f q => ?_, h.nodup, h.nonnull, fun q hq => ?_⟩
  · rw [hkey]
    exact h.keyed k q hk
  · rw [freq_setValue]
    exact h.mem_nodesAt f q
  · rw [freq_setValue]
    exact h.freq_pos q hq

/-! ## §2 Evictions and insertions -/

/-- What `kickOut` does when it works: the first node of the list of `minFreq_` is a
    resident of least frequency, and exactly that node leaves `nodeMap_` and its list. -/
structure Evicts (s : RainLfu Key Value) (p : NodePtr) (t : RainLfu Key Value) : Prop where
  first : (s.listAt s.minFreq_).bind FreqList.getFirstNode = some p
  resident : s.Resident p
  least : ∀ q, s.Resident q → (s.heap p).freq ≤ (s.heap q).freq
  nodeMap_eq : t.nodeMap_ = s.nodeMap_.erase (s.heap p).key
  size_eq : t.size + 1 = s.size
  resident_iff : ∀ q, t.Resident q ↔ s.Resident q ∧ q ≠ p
  nodesAt_own : t.nodesAt (s.heap p).freq = (s.nodesAt (s.heap p).freq).erase p
  nodesAt_other : ∀ f, f ≠ (s.heap p).freq → t.nodesAt f = s.nodesAt f

/-- `kickOut` on a non-empty cache whose `minFreq_` is right. -/
theorem kickOut_spec {s : RainLfu Key Value} (h : s.Linked) (hmin : s.MinFreqOk)
    (hne : s.size ≠ 0) (env : Env Key) :
    ∃ p t, s.kickOut env = some t ∧ Evicts s p t ∧ t.Linked ∧ t.capacity_ = s.capacity_ ∧
      t.maxAverageNum_ = s.maxAverageNum_ ∧ t.minFreq_ = s.minFreq_ := by
  obtain ⟨⟨q, hq, hfreq⟩, hlow⟩ := hmin hne
  have hlisted : q ∈ s.nodesAt s.minFreq_ := (h.mem_nodesAt _ q).mpr ⟨hq, hfreq⟩
  obtain ⟨l, hl, hnodes⟩ := listAt_of_mem_nodesAt hlisted
  -- the list of `minFreq_` is not empty, so its first node is not the sentinel
  obtain ⟨p, rest, hcons⟩ := List.exists_cons_of_ne_nil
    (List.ne_nil_of_mem (hnodes ▸ hlisted))
  have hfirst : l.getFirstNode = some p := by simp [FreqList.getFirstNode, hcons]
  obtain ⟨hp, hpfreq⟩ := (h.mem_nodesAt s.minFreq_ p).mp
    (by rw [hnodes, hcons]; exact List.mem_cons_self ..)
  obtain ⟨lists, hrem, hlinked, herase⟩ := evict_linked h hp
  refine ⟨p, ((s.setLists lists).eraseKey (s.heap p).key).decreaseFreqNum (s.heap p).freq,
    ?_, ?_, hlinked.setTotal _, rfl, rfl, rfl⟩
  · simp only [kickOut, hl, Option.bind_eq_bind, Option.bind_some, hfirst, hrem, setLists_heap]
  · constructor
    case first => simp [hl, hfirst]
    case resident => exact hp
    case least => exact fun r hr => hpfreq ▸ hlow r hr
    case nodeMap_eq => rfl
    case size_eq => exact size_eraseKey h hp
    case resident_iff => exact resident_eraseKey h hp
    case nodesAt_own => exact herase _
    case nodesAt_other => exact fun f hf => (herase f).trans (h.erase_other (Ne.symm hf))

/-- The entries that an eviction leaves. -/
theorem Evicts.lookup {s t : RainLfu Key Value} {p : NodePtr} (h : Evicts s p t) (key : Key) :
    t.nodeMap_.lookup key = none ∨ t.nodeMap_.lookup key = s.nodeMap_.lookup key := by
  rw [h.nodeMap_eq]
  by_cases hk : key = (s.heap p).key
  · rw [hk]
    exact .inl (AList.lookup_erase _ _)
  · exact .inr (AList.lookup_erase_ne hk)

theorem Evicts.lookup_none {s t : RainLfu Key Value} {p : NodePtr} (h : Evicts s p t) {key : Key}
    (hkey : s.nodeMap_.lookup key = none) : t.nodeMap_.lookup key = none := by
  rcases h.lookup key with hnone | hsame
  · exact hnone
  · rw [hsame, hkey]

/-- Inserting a new key into a cache with a free place. -/
theorem insert_spec {s : RainLfu Key Value} (h : s.Linked) (hpos : 1 ≤ s.minFreq_)
    (hcap : 1 ≤ s.capacity_) (hmax : 1 ≤ s.maxAverageNum_)
    (hsize : (s.size : Int) < s.capacity_) {key : Key} (value : Value)
    (hkey : s.nodeMap_.lookup key = none) (env : Env Key) :
    ∃ s₁ t, (s.makeNode key value).addToFreqList s.fresh = some s₁ ∧
      s₁.addFreqNum env = some t ∧ (t.setMinFreq (min t.minFreq_ 1)).Inv := by
  obtain ⟨lists, hadd, hlinked, -⟩ := makeNode_linked h value hkey
  have hsize₁ : ((s.makeNode key value).setLists lists).size = s.size + 1 :=
    size_makeNode value hkey
  obtain ⟨t, ht, htlinked, hmap, htcap, htmax, htpos, hquiet, haging⟩ :=
    addFreqNum_spec hlinked (by omega) (by exact hpos) env
  have hnew : ((s.makeNode key value).setLists lists).Resident s.fresh :=
    (resident_makeNode value hkey s.fresh).mpr (.inl rfl)
  have hfreq : (((s.makeNode key value).setLists lists).heap s.fresh).freq = 1 := by simp
  -- aging leaves the new node at frequency 1
  have hfreq_t : (t.heap s.fresh).freq = 1 := by
    by_cases hf : ((s.makeNode key value).setLists lists).AgingFires
    · rw [(haging hf).1 _ hnew, hfreq]
      exact agedFreq_one (Int.le_trans (by decide) hmax)
    · rw [(hquiet hf).2, hfreq]
  have hnew_t : t.Resident s.fresh := by
    simp only [Resident, nodePtrs, hmap]
    exact hnew
  have hmin_eq : min t.minFreq_ 1 = 1 := min_eq_right htpos
  refine ⟨_, t, hadd, ht, ?_⟩
  constructor
  case linked => exact htlinked.setMinFreq _
  case capacity_pos => exact htcap ▸ hcap
  case maxAverageNum_pos => exact htmax ▸ hmax
  case size_le =>
    have hsize_t : t.size = s.size + 1 := by
      rw [← hsize₁, size, hmap]
      rfl
    have hcap_t : t.capacity_ = s.capacity_ := htcap
    show (t.size : Int) ≤ t.capacity_
    omega
  case minFreqOk =>
    intro _
    rw [hmin_eq]
    exact ⟨⟨s.fresh, hnew_t, hfreq_t⟩, fun p hp => htlinked.freq_pos p hp⟩
  case minFreq_pos => simp [hmin_eq]

/-! ## §3 One operation -/

/-- The condition on the state before an operation: if the operation is a hit that starts an
    aging pass, some resident node ends it below `INT8_MAX`. -/
def AgingBelowCap (s : RainLfu Key Value) : Op Key Value → Prop
  | .put key _ | .get key => ∀ p, s.nodeMap_.lookup key = some p → s.HitBelowCap p
  | .purge => True

/-- `purge` keeps the invariant; the stale `minFreq_` of an empty cache is not looked at. -/
theorem inv_purge {s : RainLfu Key Value} (h : s.Inv) : s.purge.Inv := by
  have hsize : s.purge.size = 0 := rfl
  refine ⟨linked_of_empty rfl rfl, h.capacity_pos, h.maxAverageNum_pos, ?_,
    fun hne => absurd hsize hne, h.minFreq_pos⟩
  rw [hsize]
  exact Int.le_trans (by decide) h.capacity_pos

/-- A hit ends in the invariant exactly under `HitBelowCap`; otherwise `minFreq_` is wrong. -/
theorem hit_spec {s : RainLfu Key Value} (h : s.Inv) {p : NodePtr} (hp : s.Resident p)
    (env : Env Key) :
    ∃ t, s.getInternal env p = some ((s.heap p).value, t) ∧
      (s.HitBelowCap p → t.Inv) ∧ (¬ s.HitBelowCap p → ¬ t.MinFreqOk) := by
  obtain ⟨t, ht, hlinked, hmap, hcap, hmax, hpos, hiff⟩ :=
    getInternal_spec h.linked h.minFreqOk h.minFreq_pos hp env
  refine ⟨t, ht, fun hbelow => ?_, fun hnot hok => hnot (hiff.mp hok)⟩
  have hsize : t.size = s.size := by rw [size, hmap, size]
  exact ⟨hlinked, hcap ▸ h.capacity_pos, hmax ▸ h.maxAverageNum_pos,
    by rw [hsize, hcap]; exact h.size_le, hiff.mpr hbelow, hpos⟩

theorem inv_setValue {s : RainLfu Key Value} (h : s.Inv) (p : NodePtr) (v : Value) :
    (s.setValue p v).Inv := by
  have hfreq := fun q => freq_setValue s p q v
  refine ⟨h.linked.setValue p v, h.capacity_pos, h.maxAverageNum_pos, h.size_le, fun hne => ?_,
    h.minFreq_pos⟩
  obtain ⟨⟨q, hq, heq⟩, hlow⟩ := h.minFreqOk hne
  exact ⟨⟨q, hq, (hfreq q).trans heq⟩, fun r hr => (hfreq r).symm ▸ hlow r hr⟩

omit [DecidableEq Key] in
/-- The stored value plays no part in the condition. -/
theorem hitBelowCap_setValue (s : RainLfu Key Value) (p q : NodePtr) (v : Value) :
    (s.setValue p v).HitBelowCap q ↔ s.HitBelowCap q := by
  have hfreq : ∀ r, (s.setValue p v).hitFreq q r = s.hitFreq q r := by
    intro r
    rw [hitFreq, freq_setValue, hitFreq]
  simp only [HitBelowCap, hfreq]
  rfl

/-- A put of a new key: `kickOut` if the cache is full, then the insertion. -/
theorem putInternal_spec {s : RainLfu Key Value} (h : s.Inv) {key : Key} (value : Value)
    (hkey : s.nodeMap_.lookup key = none) (env : Env Key) :
    ∃ t, s.putInternal env key value = some t ∧ t.Inv := by
  by_cases hfull : (s.size : Int) = s.capacity_
  · have hne : s.size ≠ 0 := by
      have := h.capacity_pos
      omega
    obtain ⟨p, s₁, hkick, hev, hlinked, hcap, hmax, hmin⟩ :=
      kickOut_spec h.linked h.minFreqOk hne env
    have hkey₁ := hev.lookup_none hkey
    have hsize := hev.size_eq
    obtain ⟨s₂, t, hadd, ht, hinv⟩ := insert_spec hlinked (hmin ▸ h.minFreq_pos)
      (hcap ▸ h.capacity_pos) (hmax ▸ h.maxAverageNum_pos) (by rw [hcap]; omega) value hkey₁ env
    refine ⟨_, ?_, hinv⟩
    simp only [putInternal, if_pos hfull, hkick, Option.bind_eq_bind, Option.bind_some, hadd, ht]
  · have hroom : (s.size : Int) < s.capacity_ := lt_of_le_of_ne h.size_le hfull
    obtain ⟨s₂, t, hadd, ht, hinv⟩ := insert_spec h.linked h.minFreq_pos h.capacity_pos
      h.maxAverageNum_pos hroom value hkey env
    refine ⟨_, ?_, hinv⟩
    simp only [putInternal, if_neg hfull, Option.bind_eq_bind, Option.bind_some, hadd, ht]

/-- **One operation**: from the invariant no operation faults; it ends in the invariant when
    its condition holds, and with a wrong `minFreq_` when it does not. -/
theorem apply_spec {s : RainLfu Key Value} (h : s.Inv) (env : Env Key) (op : Op Key Value) :
    ∃ t, s.apply env op = some t ∧ (s.AgingBelowCap op → t.Inv) ∧
      (¬ s.AgingBelowCap op → ¬ t.MinFreqOk) := by
  cases op with
  | put key value =>
    have hcap : s.capacity_ ≠ 0 := by
      have := h.capacity_pos
      omega
    cases hlook : s.nodeMap_.lookup key with
    | some p =>
      have hp : s.Resident p := (resident_iff s p).mpr ⟨key, hlook⟩
      -- `put` on a resident key stores the value first; the rest is a hit
      obtain ⟨t, ht, hgood, hbad⟩ := hit_spec (inv_setValue h p value) (by exact hp) env
      rw [hitBelowCap_setValue] at hgood hbad
      refine ⟨t, ?_, fun hc => hgood (hc p hlook), fun hc => hbad (fun hb => hc ?_)⟩
      · simp only [apply, put, if_neg hcap, hlook, ht, Option.map_some]
      · intro q hq
        rw [hlook, Option.some.injEq] at hq
        exact hq ▸ hb
    | none =>
      -- a new node has frequency 1, so an insertion is never in danger
      obtain ⟨t, ht, hinv⟩ := putInternal_spec h value hlook env
      refine ⟨t, ?_, fun _ => hinv, fun hc => absurd ?_ hc⟩
      · simp only [apply, put, if_neg hcap, hlook, ht]
      · intro q hq
        rw [hlook] at hq
        cases hq
  | get key =>
    cases hlook : s.nodeMap_.lookup key with
    | some p =>
      have hp : s.Resident p := (resident_iff s p).mpr ⟨key, hlook⟩
      obtain ⟨t, ht, hgood, hbad⟩ := hit_spec h hp env
      refine ⟨t, ?_, fun hc => hgood (hc p hlook), fun hc => hbad (fun hb => hc ?_)⟩
      · simp only [apply, get, hlook, ht, Option.map_some]
      · intro q hq
        rw [hlook, Option.some.injEq] at hq
        exact hq ▸ hb
    | none =>
      refine ⟨s, ?_, fun _ => h, fun hc => absurd ?_ hc⟩
      · simp only [apply, get, hlook, Option.map_some]
      · intro q hq
        rw [hlook] at hq
        cases hq
  | purge => exact ⟨_, rfl, fun _ => inv_purge h, fun hc => absurd trivial hc⟩

/-! ## §4 Runs -/

/-- The cache is right in a state: it is within its capacity, `minFreq_` is the least
    frequency of a resident, and `kickOut` would evict exactly one resident of least
    frequency from `nodeMap_` and from its list. -/
structure Good (s : RainLfu Key Value) : Prop where
  size_le : (s.size : Int) ≤ s.capacity_
  minFreqOk : s.MinFreqOk
  evicts : s.size ≠ 0 → ∀ env : Env Key, ∃ p t, s.kickOut env = some t ∧ Evicts s p t

theorem Inv.good {s : RainLfu Key Value} (h : s.Inv) : s.Good := by
  refine ⟨h.size_le, h.minFreqOk, fun hne env => ?_⟩
  obtain ⟨p, t, hkick, hev, -⟩ := kickOut_spec h.linked h.minFreqOk hne env
  exact ⟨p, t, hkick, hev⟩

/-- Every state that a run reaches, the first one included, is right, and no operation
    faults. -/
def RunGood (s : RainLfu Key Value) : List (Op Key Value × Env Key) → Prop
  | [] => s.Good
  | (op, env) :: rest => s.Good ∧ ∃ t, s.apply env op = some t ∧ RunGood t rest

/-- Every operation of a run meets its condition in the state in which it starts. -/
def RunBelowCap (s : RainLfu Key Value) : List (Op Key Value × Env Key) → Prop
  | [] => True
  | (op, env) :: rest =>
    s.AgingBelowCap op ∧ ∀ t, s.apply env op = some t → RunBelowCap t rest

/-- From the invariant a run is right throughout exactly when its steps meet the condition. -/
theorem runGood_iff {s : RainLfu Key Value} (h : s.Inv)
    (ops : List (Op Key Value × Env Key)) : s.RunGood ops ↔ s.RunBelowCap ops := by
  induction ops generalizing s with
  | nil => exact ⟨fun _ => trivial, fun _ => h.good⟩
  | cons head rest ih =>
    obtain ⟨op, env⟩ := head
    obtain ⟨t, ht, hgood, hbad⟩ := apply_spec h env op
    constructor
    · rintro ⟨-, t', ht', hrun⟩
      rw [ht, Option.some.injEq] at ht'
      subst ht'
      -- a step that breaks the condition leaves a wrong `minFreq_` behind
      have hcond : s.AgingBelowCap op := by
        by_contra hnot
        refine hbad hnot ?_
        cases rest with
        | nil => exact hrun.minFreqOk
        | cons _ _ => exact hrun.1.minFreqOk
      refine ⟨hcond, fun u hu => ?_⟩
      rw [ht, Option.some.injEq] at hu
      exact hu ▸ (ih (hgood hcond)).mp hrun
    · rintro ⟨hcond, hrest⟩
      exact ⟨h.good, t, ht, (ih (hgood hcond)).mpr (hrest t ht)⟩

/-- **The cache is right throughout a run if and only if no hit of the run starts an aging
    pass that leaves every resident node at frequency `INT8_MAX` or more.** -/
theorem runGood_new_iff_runBelowCap [Inhabited Key] [Inhabited Value]
    (capacity maxAverageNum : Int) (hcap : 1 ≤ capacity) (hmax : 1 ≤ maxAverageNum)
    (ops : List (Op Key Value × Env Key)) :
    (new capacity maxAverageNum : RainLfu Key Value).RunGood ops ↔
      (new capacity maxAverageNum : RainLfu Key Value).RunBelowCap ops :=
  runGood_iff (inv_new hcap hmax) ops

/-- An environment for closed runs: the map's own order, and a sentinel key. -/
def plainEnv (sentinelKey : Nat) : Env Nat := ⟨id, fun _ => .refl _, sentinelKey⟩

/-- An insertion, an eviction and a purge stay below the cap. -/
theorem runGood_put_put_purge :
    (new 1 10 : RainLfu Nat Nat).RunGood
      [(.put 0 7, plainEnv 0), (.put 1 8, plainEnv 0), (.purge, plainEnv 0)] := by
  refine (runGood_new_iff_runBelowCap 1 10 (by decide) (by decide) _).mpr
    ⟨?_, fun t ht => ⟨?_, fun _ _ => ⟨trivial, fun _ _ => trivial⟩⟩⟩
  · intro p hp
    simp [new] at hp
  · intro p hp
    -- after the first put only the key 0 is resident
    have hkeys : ((new 1 10 : RainLfu Nat Nat).apply (plainEnv 0) (.put 0 7)).map
        (fun t => t.nodeMap_.lookup 1) = some none := by decide
    rw [ht, Option.map_some, Option.some.injEq] at hkeys
    rw [hkeys] at hp
    cases hp

/-- A run that is right throughout ends in a right state. -/
theorem RunGood.last {s t : RainLfu Key Value} {ops : List (Op Key Value × Env Key)}
    (h : s.RunGood ops) (ht : s.applyAll ops = some t) : t.Good := by
  induction ops generalizing s with
  | nil =>
    rw [applyAll, Option.some.injEq] at ht
    exact ht ▸ h
  | cons head rest ih =>
    obtain ⟨-, u, hu, hrun⟩ := h
    rw [applyAll, hu, Option.bind_some] at ht
    exact ih hrun ht

/-- One key is hit until its frequency is 127; then a second key is put into the full cache
    of capacity 1. Aging is due at every access, but subtracts `1 / 2 = 0`. -/
def hitsThenPut : List (Op Nat Nat × Env Nat) :=
  (.put 0 7, plainEnv 2) :: List.replicate 126 (.get 0, plainEnv 2) ++ [(.put 1 8, plainEnv 2)]

/-- In that run `minFreq_` falls back to 1, `kickOut` picks the tail sentinel of the empty
    list of frequency 1, and the cache of capacity 1 ends with two entries. -/
theorem size_exceeds_capacity_after_hits :
    ¬ ∀ (capacity maxAverageNum : Int) (ops : List (Op Nat Nat × Env Nat)),
      1 ≤ capacity → 1 ≤ maxAverageNum → ops.length < 2 ^ 31 →
      (new capacity maxAverageNum : RainLfu Nat Nat).RunGood ops := by
  intro hall
  have hrun := hall 1 1 hitsThenPut (by decide) (by decide) (by simp [hitsThenPut])
  have hend : ((new 1 1 : RainLfu Nat Nat).applyAll hitsThenPut).map
      (fun t => (t.size, t.capacity_)) = some (2, 1) := by decide +kernel
  obtain ⟨t, ht, hpair⟩ := Option.map_eq_some_iff.mp hend
  have hle := (hrun.last ht).size_le
  simp only [Prod.mk.injEq] at hpair
  rw [hpair.1, hpair.2] at hle
  exact absurd hle (by decide)

end RainLfu

end RainWebServer.Util
