import RainWebServer.Util.RainLfuRuns

/-!
# RainLfu: the Reference LFU

An LFU cache in its own terms: the entries with their access counts and the times of their last
accesses. As long as no aging pass runs, `RainLfu` gives the results of this cache.

The counts are the frequencies of the nodes. The times are not in the program; they are tied to
it by the order of the frequency lists, in which a node stands behind those that were accessed
before it.

## Main results

- `Simulates.hit`, `Simulates.evict`, `Simulates.insert` : one step of both caches
- `lfu_refines_reference` : every run without aging
-/

namespace RainWebServer.Util

/-! ## §1 The reference -/

/-- An entry of the reference cache. -/
structure RefEntry (Key Value : Type) where
  key : Key
  value : Value
  /-- How often the entry was accessed. -/
  count : Nat
  /-- When it was accessed last. -/
  last : Nat
  deriving DecidableEq

/-- The reference cache. -/
structure RefLfu (Key Value : Type) where
  capacity : Nat
  /-- The time of the next access. -/
  clock : Nat
  entries : List (RefEntry Key Value)

namespace RefEntry

variable {Key Value : Type}

/-- The entry is evicted before the other one: it has a smaller count, or the same count and an
    older last access. -/
def before (e e' : RefEntry Key Value) : Bool :=
  e.count < e'.count || (e.count = e'.count && e.last ≤ e'.last)

theorem before_iff {e e' : RefEntry Key Value} :
    e.before e' = true ↔ e.count < e'.count ∨ e.count = e'.count ∧ e.last ≤ e'.last := by
  simp [before]

/-- The entry after an access. -/
def touch (e : RefEntry Key Value) (time : Nat) : RefEntry Key Value :=
  { e with count := e.count + 1, last := time }

end RefEntry

namespace RefLfu

variable {Key Value : Type}

/-- An empty cache. -/
def new (capacity : Nat) : RefLfu Key Value := ⟨capacity, 0, []⟩

/-- The entry that is evicted next. -/
def victim (r : RefLfu Key Value) : Option (RefEntry Key Value) :=
  r.entries.find? (fun e => r.entries.all e.before)

section Keyed

variable [DecidableEq Key]

/-- The entry of a key. -/
def find (r : RefLfu Key Value) (key : Key) : Option (RefEntry Key Value) :=
  r.entries.find? (fun e => e.key = key)

/-- An access to the entry of `key`, which stores `value`. -/
def access (r : RefLfu Key Value) (key : Key) (value : Value) : RefLfu Key Value :=
  { r with
    clock := r.clock + 1
    entries := r.entries.map (fun e =>
      if e.key = key then { e with value := value }.touch r.clock else e) }

/-- The victim leaves the cache. -/
def evict (r : RefLfu Key Value) : RefLfu Key Value :=
  match r.victim with
  | some v => { r with entries := r.entries.filter (fun e => e.key ≠ v.key) }
  | none => r

/-- A new entry with count 1. -/
def insert (r : RefLfu Key Value) (key : Key) (value : Value) : RefLfu Key Value :=
  { r with clock := r.clock + 1, entries := ⟨key, value, 1, r.clock⟩ :: r.entries }

/-- One operation, with the result of a `get`. -/
def perform (r : RefLfu Key Value) : RainLfu.Op Key Value → RefLfu Key Value × Option Value
  | .put key value =>
    match r.find key with
    | some _ => (r.access key value, none)
    | none => ((if r.entries.length = r.capacity then r.evict else r).insert key value, none)
  | .get key =>
    match r.find key with
    | some e => (r.access key e.value, some e.value)
    | none => (r, none)
  | .purge => ({ r with entries := [] }, none)

end Keyed

end RefLfu

namespace RainLfu

variable {Key Value : Type} [DecidableEq Key]

/-! ## §2 The statement -/

/-- One operation, with the result of a `get`. -/
def perform (s : RainLfu Key Value) (env : Env Key) :
    Op Key Value → Option (RainLfu Key Value × Option Value)
  | .put key value => (s.put env key value).map (fun t => (t, none))
  | .get key => (s.get env key).map (fun result => (result.2, result.1))
  | .purge => some (s.purge, none)

/-- The operation calls `addFreqNum`. -/
def Accesses (s : RainLfu Key Value) : Op Key Value → Prop
  | .put _ _ => s.capacity_ ≠ 0
  | .get key => s.nodeMap_.lookup key ≠ none
  | .purge => False

/-- No aging pass runs: after every operation that calls `addFreqNum` the average that it has
    computed is not above the maximum. -/
def RunQuiet (s : RainLfu Key Value) : List (Op Key Value × Env Key) → Prop
  | [] => True
  | (op, env) :: rest => ∀ t, s.apply env op = some t →
    (s.Accesses op → t.curAverageNum_ ≤ t.maxAverageNum_) ∧ RunQuiet t rest

/-- The two caches hold the same pairs. -/
def SameResidents (s : RainLfu Key Value) (r : RefLfu Key Value) : Prop :=
  ∀ key value, (∃ p, s.nodeMap_.lookup key = some p ∧ (s.heap p).value = value) ↔
    ∃ e ∈ r.entries, e.key = key ∧ e.value = value

/-- The caches hold the same pairs before and after every operation of a run, and every
    operation has the same result on both. -/
def Matches (s : RainLfu Key Value) (r : RefLfu Key Value) :
    List (Op Key Value × Env Key) → Prop
  | [] => SameResidents s r
  | (op, env) :: rest => SameResidents s r ∧
    ∃ t, s.perform env op = some (t, (r.perform op).2) ∧ Matches t (r.perform op).1 rest

/-! ## §3 The average is what `addFreqNum` computed -/

/-- What moving nodes between the lists does not change. -/
structure CountersKept (s t : RainLfu Key Value) : Prop where
  average : t.curAverageNum_ = s.curAverageNum_
  maximum : t.maxAverageNum_ = s.maxAverageNum_
  total : t.curTotalNum_ = s.curTotalNum_
  value : ∀ p, (t.heap p).value = (s.heap p).value

omit [DecidableEq Key] in
theorem CountersKept.trans {s t u : RainLfu Key Value} (h₁ : s.CountersKept t)
    (h₂ : t.CountersKept u) : s.CountersKept u :=
  ⟨h₂.average.trans h₁.average, h₂.maximum.trans h₁.maximum, h₂.total.trans h₁.total,
    fun p => (h₂.value p).trans (h₁.value p)⟩

omit [DecidableEq Key] in
theorem countersKept_setLists (s : RainLfu Key Value)
    (lists : AList (fun _ : Int => Option FreqList)) : s.CountersKept (s.setLists lists) :=
  ⟨rfl, rfl, rfl, fun _ => rfl⟩

omit [DecidableEq Key] in
theorem countersKept_setFreq (s : RainLfu Key Value) (p : NodePtr) (f : Int) :
    s.CountersKept (s.setFreq p f) := by
  refine ⟨rfl, rfl, rfl, fun q => ?_⟩
  rcases Nat.decEq q p with hq | rfl
  · simp [hq]
  · simp

omit [DecidableEq Key] in
/-- The node is moved to the list of another frequency. -/
theorem ageNode_counters {s t : RainLfu Key Value} {p : NodePtr} (h : s.ageNode p = some t) :
    s.CountersKept t := by
  obtain ⟨u, hu, hadd⟩ := Option.bind_eq_some_iff.mp h
  obtain ⟨l, -, hu'⟩ := Option.bind_eq_some_iff.mp hu
  cases hu'
  obtain ⟨l', -, ht⟩ := Option.bind_eq_some_iff.mp hadd
  cases ht
  exact (countersKept_setLists s _).trans
    ((countersKept_setFreq _ p _).trans (countersKept_setLists _ _))

omit [DecidableEq Key] in
theorem foldlM_ageNode_counters {L : List NodePtr} {s t : RainLfu Key Value}
    (h : L.foldlM ageNode s = some t) : s.CountersKept t := by
  induction L generalizing s with
  | nil =>
    cases h
    exact ⟨rfl, rfl, rfl, fun _ => rfl⟩
  | cons p L ih =>
    rw [List.foldlM_cons] at h
    obtain ⟨u, hu, hrest⟩ := Option.bind_eq_some_iff.mp h
    exact (ageNode_counters hu).trans (ih hrest)

omit [DecidableEq Key] in
/-- The counters after `addFreqNum`, with or without an aging pass. -/
theorem addFreqNum_counters {s t : RainLfu Key Value} {env : Env Key}
    (h : s.addFreqNum env = some t) : (s.setTotal (s.curTotalNum_ + 1)).CountersKept t := by
  rw [addFreqNum] at h
  split at h
  · rw [handleOverMaxAverageNum] at h
    split at h
    · cases h
      exact ⟨rfl, rfl, rfl, fun _ => rfl⟩
    · obtain ⟨u, hu, ht⟩ := Option.bind_eq_some_iff.mp h
      cases ht
      have hkept := foldlM_ageNode_counters hu
      exact ⟨hkept.average, hkept.maximum, hkept.total, hkept.value⟩
  · cases h
    exact ⟨rfl, rfl, rfl, fun _ => rfl⟩

omit [DecidableEq Key] in
/-- An average that is not above the maximum after the call means that no aging pass ran. -/
theorem not_fires_of_average {s t : RainLfu Key Value} {env : Env Key}
    (h : s.addFreqNum env = some t) (haverage : t.curAverageNum_ ≤ t.maxAverageNum_) :
    ¬s.AgingFires := by
  intro hfires
  have hkept := addFreqNum_counters h
  rw [hkept.average, hkept.maximum] at haverage
  exact absurd hfires (not_lt.mpr haverage)

/-! ## §4 The simulation -/

/-- The entry of a node that was accessed last at `last p`. -/
def entryOf (s : RainLfu Key Value) (last : NodePtr → Nat) (p : NodePtr) : RefEntry Key Value :=
  ⟨(s.heap p).key, (s.heap p).value, (s.heap p).freq.toNat, last p⟩

/-- The nodes are the entries, and in a frequency list those accessed earlier come first. -/
structure Timed (s : RainLfu Key Value) (r : RefLfu Key Value) (last : NodePtr → Nat) : Prop where
  entries_eq : r.entries = s.nodePtrs.map (s.entryOf last)
  ordered : ∀ f, (s.nodesAt f).Pairwise (fun p q => last p < last q)
  last_lt : ∀ p, s.Resident p → last p < r.clock

/-- `RainLfu` and the reference, also between the eviction and the insertion of a `put`. -/
structure Mirrors (s : RainLfu Key Value) (r : RefLfu Key Value) : Prop where
  linked : s.Linked
  capacity_pos : 1 ≤ s.capacity_
  capacity_eq : s.capacity_ = r.capacity
  size_le : (s.size : Int) ≤ s.capacity_
  minFreq_pos : 1 ≤ s.minFreq_
  timed : ∃ last, s.Timed r last

/-- `RainLfu` and the reference between two operations. -/
structure Simulates (s : RainLfu Key Value) (r : RefLfu Key Value) : Prop
    extends s.Mirrors r where
  minFreqOk : s.MinFreqOk

/-- Nodes with the same key are the same. -/
theorem Linked.eq_of_key {s : RainLfu Key Value} (h : s.Linked) {p q : NodePtr}
    (hp : s.Resident p) (hq : s.Resident q) (hkey : (s.heap p).key = (s.heap q).key) : p = q := by
  obtain ⟨kp, hkp⟩ := (resident_iff s p).mp hp
  obtain ⟨kq, hkq⟩ := (resident_iff s q).mp hq
  rw [h.keyed kp p hkp, h.keyed kq q hkq] at hkey
  rw [hkey, hkq, Option.some.injEq] at hkp
  exact hkp.symm

/-- The reference finds the entry of the node that `nodeMap_` finds. -/
theorem Timed.find_eq {s : RainLfu Key Value} {r : RefLfu Key Value} {last : NodePtr → Nat}
    (ht : s.Timed r last) (h : s.Linked) (key : Key) :
    r.find key = (s.nodeMap_.lookup key).map (s.entryOf last) := by
  cases hlook : s.nodeMap_.lookup key with
  | none =>
    rw [Option.map_none, RefLfu.find, List.find?_eq_none, ht.entries_eq]
    intro e he hkey
    obtain ⟨p, hp, rfl⟩ := List.mem_map.mp he
    obtain ⟨k, hk⟩ := (resident_iff s p).mp hp
    have hkk : k = key := by
      rw [← h.keyed k p hk]
      exact of_decide_eq_true hkey
    rw [hkk, hlook] at hk
    cases hk
  | some p =>
    have hp : s.Resident p := (resident_iff s p).mpr ⟨key, hlook⟩
    have hmem : s.entryOf last p ∈ r.entries := by
      rw [ht.entries_eq]
      exact List.mem_map_of_mem hp
    have hsome : (r.find key).isSome := by
      rw [RefLfu.find, List.find?_isSome]
      exact ⟨_, hmem, decide_eq_true (h.keyed key p hlook)⟩
    obtain ⟨e, he⟩ := Option.isSome_iff_exists.mp hsome
    have hkey : e.key = key := by
      have hfound := List.find?_some he
      simpa using hfound
    have he' := List.mem_of_find?_eq_some he
    rw [ht.entries_eq] at he'
    obtain ⟨q, hq, rfl⟩ := List.mem_map.mp he'
    -- keys are unique among the residents, so it is the same node
    have hqp : q = p := h.eq_of_key hq hp (hkey.trans (h.keyed key p hlook).symm)
    rw [he, hqp]
    rfl

/-- The pairs of the two caches. -/
theorem Simulates.sameResidents {s : RainLfu Key Value} {r : RefLfu Key Value}
    (h : s.Simulates r) : s.SameResidents r := by
  obtain ⟨last, ht⟩ := h.timed
  intro key value
  rw [ht.entries_eq]
  constructor
  · rintro ⟨p, hlook, hvalue⟩
    have hp : s.Resident p := (resident_iff s p).mpr ⟨key, hlook⟩
    exact ⟨_, List.mem_map_of_mem hp, h.linked.keyed key p hlook, hvalue⟩
  · rintro ⟨e, he, hkey, hvalue⟩
    obtain ⟨p, hp, rfl⟩ := List.mem_map.mp he
    obtain ⟨k, hk⟩ := (resident_iff s p).mp hp
    have hkk : k = key := (h.linked.keyed k p hk).symm.trans hkey
    exact ⟨p, hkk ▸ hk, hvalue⟩

/-- Storing a value in a resident node. -/
theorem Simulates.setValue {s : RainLfu Key Value} {r : RefLfu Key Value} (h : s.Simulates r)
    {key : Key} {p : NodePtr} (hp : s.nodeMap_.lookup key = some p) (v : Value) :
    (s.setValue p v).Simulates
      { r with entries := r.entries.map (fun e =>
          if e.key = key then { e with value := v } else e) } := by
  have hres : s.Resident p := (resident_iff s p).mpr ⟨key, hp⟩
  have hkeyp := h.linked.keyed key p hp
  have hother : ∀ q, q ≠ p → (s.setValue p v).heap q = s.heap q := by
    intro q hq
    simp [hq]
  have hself : (s.setValue p v).heap p = { s.heap p with value := v } := by
    simp
  have hfreq := fun q => freq_setValue s p q v
  refine ⟨⟨h.linked.setValue p v, h.capacity_pos, h.capacity_eq, h.size_le, h.minFreq_pos, ?_⟩, ?_⟩
  · obtain ⟨last, ht⟩ := h.timed
    refine ⟨last, ?_, ht.ordered, ht.last_lt⟩
    rw [ht.entries_eq, List.map_map]
    refine List.map_congr_left fun q hq => ?_
    simp only [Function.comp_apply]
    rcases Nat.decEq q p with hqp | rfl
    · -- the reference looks at the key, the cache at the node: the two pick the same entry
      have hkey : (s.entryOf last q).key ≠ key := by
        intro heq
        exact hqp (h.linked.eq_of_key hq hres (heq.trans hkeyp.symm))
      rw [if_neg hkey, entryOf, entryOf, hother q hqp]
    · have hkey : (s.entryOf last q).key = key := hkeyp
      rw [if_pos hkey, entryOf, entryOf, hself]
  · intro hne
    obtain ⟨⟨q, hq, hmin⟩, hlow⟩ := h.minFreqOk hne
    refine ⟨⟨q, hq, (hfreq q).trans hmin⟩, fun q' hq' => ?_⟩
    rw [hfreq]
    exact hlow q' hq'

/-- **A hit.** The node moves to the end of the list of the next frequency, the entry is counted
    and becomes the one accessed last. -/
theorem Simulates.hit {s : RainLfu Key Value} {r : RefLfu Key Value} (h : s.Simulates r)
    {key : Key} {p : NodePtr} (hp : s.nodeMap_.lookup key = some p) (env : Env Key)
    (hquiet : ∀ v t, s.getInternal env p = some (v, t) → t.curAverageNum_ ≤ t.maxAverageNum_) :
    ∃ t, s.getInternal env p = some ((s.heap p).value, t) ∧
      t.Simulates (r.access key (s.heap p).value) := by
  have hres : s.Resident p := (resident_iff s p).mpr ⟨key, hp⟩
  have hkeyp := h.linked.keyed key p hp
  have hfreqp := h.linked.freq_pos p hres
  obtain ⟨s₁, f, hrel, hlinked₁, hf, hmin₁, hne, -, hget⟩ :=
    getInternal_moves h.linked h.minFreqOk h.minFreq_pos hres env
  obtain ⟨t, ht, -⟩ := addFreqNum_spec (hlinked₁.setMinFreq f) hne hf env
  have hreturn := hget t ht
  -- without aging only the counters change after the move
  rw [addFreqNum_of_not_fires env (not_fires_of_average ht (hquiet _ t hreturn)),
    Option.some.injEq] at ht
  have hcap := hrel.capacity_eq
  refine ⟨t, hreturn, ?_⟩
  rw [← ht]
  refine ⟨⟨(hlinked₁.setMinFreq f).setTotal _, ?_, ?_, ?_, hf, ?_⟩, hmin₁⟩
  · exact hcap.symm ▸ h.capacity_pos
  · exact hcap.trans h.capacity_eq
  · have hle := h.size_le
    rw [← hrel.size_eq, ← hcap] at hle
    exact hle
  · obtain ⟨last, htimed⟩ := h.timed
    have hptrs : s₁.nodePtrs = s.nodePtrs := by
      rw [nodePtrs, hrel.nodeMap_eq]
      rfl
    have hlast : ∀ q, q ≠ p → Function.update last p r.clock q = last q :=
      fun q hq => Function.update_of_ne hq _ _
    refine ⟨Function.update last p r.clock, ?_, ?_, ?_⟩
    · show (r.access key (s.heap p).value).entries =
        s₁.nodePtrs.map (s₁.entryOf (Function.update last p r.clock))
      rw [RefLfu.access, htimed.entries_eq, hptrs, List.map_map]
      refine List.map_congr_left fun q hq => ?_
      simp only [Function.comp_apply]
      rcases Nat.decEq q p with hqp | rfl
      · have hkey : (s.entryOf last q).key ≠ key := by
          intro heq
          exact hqp (h.linked.eq_of_key hq hres (heq.trans hkeyp.symm))
        rw [if_neg hkey, entryOf, entryOf, hrel.heap_other hqp, hlast q hqp]
      · have hkey : (s.entryOf last q).key = key := hkeyp
        rw [if_pos hkey, entryOf, entryOf, hrel.heap_eq, Function.update_self,
          Function.update_self, RefEntry.touch]
        simp only [RefEntry.mk.injEq, true_and, and_true]
        omega
    · intro g
      have hnodes : s₁.nodesAt g =
          if g = (s.heap p).freq + 1 then (s.nodesAt g).erase p ++ [p]
          else (s.nodesAt g).erase p := hrel.nodesAt_eq g
      have herase : ((s.nodesAt g).erase p).Pairwise (fun q q' =>
          Function.update last p r.clock q < Function.update last p r.clock q') := by
        refine List.Pairwise.imp_of_mem ?_ ((htimed.ordered g).sublist List.erase_sublist)
        intro q q' hq hq' hlt
        have hqp := ((h.linked.nodup g).mem_erase_iff.mp hq).1
        have hqp' := ((h.linked.nodup g).mem_erase_iff.mp hq').1
        rw [hlast q hqp, hlast q' hqp']
        exact hlt
      show (s₁.nodesAt g).Pairwise _
      rw [hnodes]
      split
      · refine List.pairwise_append.mpr ⟨herase, List.pairwise_singleton _ _, ?_⟩
        intro q hq q' hq'
        rw [List.mem_singleton] at hq'
        obtain ⟨hqp, hmem⟩ := (h.linked.nodup g).mem_erase_iff.mp hq
        rw [hq', hlast q hqp, Function.update_self]
        exact htimed.last_lt q ((h.linked.mem_nodesAt g q).mp hmem).1
      · exact herase
    · intro q hq
      have hq' : s.Resident q := (hrel.resident_iff q).mp hq
      show Function.update last p r.clock q < r.clock + 1
      rcases Nat.decEq q p with hqp | rfl
      · rw [hlast q hqp]
        exact Nat.lt_succ_of_lt (htimed.last_lt q hq')
      · rw [Function.update_self]
        exact Nat.lt_succ_self _

/-- **An insertion** into a cache with a free place. -/
theorem Mirrors.insert {s : RainLfu Key Value} {r : RefLfu Key Value} (h : s.Mirrors r)
    {key : Key} (value : Value) (hkey : s.nodeMap_.lookup key = none)
    (hroom : (s.size : Int) < s.capacity_) (env : Env Key) :
    ∃ s₁ t, (s.makeNode key value).addToFreqList s.fresh = some s₁ ∧
      s₁.addFreqNum env = some t ∧
      (t.curAverageNum_ ≤ t.maxAverageNum_ →
        (t.setMinFreq (min t.minFreq_ 1)).Simulates (r.insert key value)) := by
  obtain ⟨lists, hadd, hlinked, hnodes⟩ := makeNode_linked h.linked value hkey
  have hsize₁ : ((s.makeNode key value).setLists lists).size = s.size + 1 :=
    size_makeNode value hkey
  obtain ⟨t, ht, -⟩ := addFreqNum_spec hlinked (by omega) (by exact h.minFreq_pos) env
  refine ⟨_, t, hadd, ht, fun haverage => ?_⟩
  rw [addFreqNum_of_not_fires env (not_fires_of_average ht haverage), Option.some.injEq] at ht
  subst ht
  have hres : ∀ p, ((s.makeNode key value).setLists lists).Resident p ↔
      p = s.fresh ∨ s.Resident p := resident_makeNode value hkey
  have hold : ∀ p, s.Resident p → p ≠ s.fresh := fun p hp => Nat.ne_of_lt (h.linked.older p hp)
  have hmin : min s.minFreq_ 1 = 1 := min_eq_right h.minFreq_pos
  refine ⟨⟨(hlinked.setTotal _).setMinFreq _, h.capacity_pos, h.capacity_eq, ?_, ?_, ?_⟩, ?_⟩
  · show ((((s.makeNode key value).setLists lists).size : Nat) : Int) ≤ s.capacity_
    rw [hsize₁]
    omega
  · show 1 ≤ min s.minFreq_ 1
    -- frequencies are positive, so 1 is the least as soon as a node has it
    rw [hmin]
  · -- the new node is dated by the clock, so it is younger than every other
    obtain ⟨last, htimed⟩ := h.timed
    have hlast : ∀ q, s.Resident q → Function.update last s.fresh r.clock q = last q :=
      fun q hq => Function.update_of_ne (hold q hq) _ _
    have hptrs : ((s.makeNode key value).setLists lists).nodePtrs = s.fresh :: s.nodePtrs :=
      nodePtrs_makeNode value hkey
    refine ⟨Function.update last s.fresh r.clock, ?_, ?_, ?_⟩
    · show (r.insert key value).entries = ((s.makeNode key value).setLists lists).nodePtrs.map
        (((s.makeNode key value).setLists lists).entryOf (Function.update last s.fresh r.clock))
      rw [hptrs, List.map_cons, RefLfu.insert, htimed.entries_eq]
      refine congrArg₂ List.cons ?_ (List.map_congr_left fun q hq => ?_)
      · simp [entryOf]
      · rw [entryOf, entryOf, hlast q hq]
        simp [hold q hq]
    · intro g
      show (((s.makeNode key value).setLists lists).nodesAt g).Pairwise _
      have holds : (s.nodesAt g).Pairwise (fun q q' =>
          Function.update last s.fresh r.clock q < Function.update last s.fresh r.clock q') := by
        refine List.Pairwise.imp_of_mem ?_ (htimed.ordered g)
        intro q q' hq hq' hlt
        rw [hlast q ((h.linked.mem_nodesAt g q).mp hq).1,
          hlast q' ((h.linked.mem_nodesAt g q').mp hq').1]
        exact hlt
      rw [hnodes g]
      split
      · -- frequency 1: the new node goes to the end, after older ones
        refine List.pairwise_append.mpr ⟨holds, List.pairwise_singleton _ _, ?_⟩
        intro q hq q' hq'
        rw [List.mem_singleton] at hq'
        have hq'' := ((h.linked.mem_nodesAt g q).mp hq).1
        rw [hq', hlast q hq'', Function.update_self]
        exact htimed.last_lt q hq''
      · exact holds
    · intro q hq
      show Function.update last s.fresh r.clock q < r.clock + 1
      rcases (hres q).mp hq with rfl | hq'
      · rw [Function.update_self]
        exact Nat.lt_succ_self _
      · rw [hlast q hq']
        exact Nat.lt_succ_of_lt (htimed.last_lt q hq')
  · intro _
    show (∃ p, ((s.makeNode key value).setLists lists).Resident p ∧
        (((s.makeNode key value).setLists lists).heap p).freq = min s.minFreq_ 1) ∧
      ∀ p, ((s.makeNode key value).setLists lists).Resident p →
        min s.minFreq_ 1 ≤ (((s.makeNode key value).setLists lists).heap p).freq
    rw [hmin]
    exact ⟨⟨s.fresh, (hres _).mpr (.inl rfl), by simp⟩, hlinked.freq_pos⟩

/-- The entries of a map without a key. -/
theorem entries_erase (m : AList (fun _ : Key => NodePtr)) (key : Key) :
    (m.erase key).entries = m.entries.filter (fun entry => entry.1 ≠ key) := by
  have hkeys := m.nodupKeys
  show List.kerase key m.entries = _
  generalize m.entries = l at hkeys
  induction l with
  | nil => rfl
  | cons entry l ih =>
    rw [List.nodupKeys_cons] at hkeys
    by_cases hkey : key = entry.1
    · rw [List.kerase_cons_eq hkey, List.filter_cons_of_neg (by simp [hkey]), eq_comm,
        List.filter_eq_self]
      intro entry' hentry'
      have hne : entry'.1 ≠ entry.1 := by
        intro heq
        exact hkeys.1 (heq ▸ List.mem_map_of_mem hentry')
      simpa [hkey] using hne
    · rw [List.kerase_cons_ne hkey, List.filter_cons_of_pos (by simpa using Ne.symm hkey),
        ih hkeys.2]

/-- `kickOut` does not touch the nodes. -/
theorem kickOut_heap {s t : RainLfu Key Value} {env : Env Key} (h : s.kickOut env = some t) :
    t.heap = s.heap := by
  obtain ⟨l, -, hrest⟩ := Option.bind_eq_some_iff.mp h
  split at hrest
  · obtain ⟨u, hu, ht⟩ := Option.bind_eq_some_iff.mp hrest
    obtain ⟨l', -, hu'⟩ := Option.bind_eq_some_iff.mp hu
    cases hu'
    cases ht
    rfl
  · obtain ⟨u, -, ht⟩ := Option.bind_eq_some_iff.mp hrest
    cases ht
    rfl

/-- The first node of the list of least frequency is the victim of the reference. -/
theorem Timed.victim_eq {s : RainLfu Key Value} {r : RefLfu Key Value} {last : NodePtr → Nat}
    (ht : s.Timed r last) (h : s.Linked) {p : NodePtr} {rest : List NodePtr} (hp : s.Resident p)
    (hfirst : s.nodesAt (s.heap p).freq = p :: rest)
    (hleast : ∀ q, s.Resident q → (s.heap p).freq ≤ (s.heap q).freq) :
    r.victim = some (s.entryOf last p) := by
  -- a resident of the same frequency is behind `p` in its list
  have hlater : ∀ q, s.Resident q → (s.heap q).freq = (s.heap p).freq → q ≠ p →
      last p < last q := by
    intro q hq hfreq hne
    have hmem := (h.mem_nodesAt (s.heap p).freq q).mpr ⟨hq, hfreq⟩
    have hordered := ht.ordered (s.heap p).freq
    rw [hfirst] at hmem hordered
    exact (List.pairwise_cons.mp hordered).1 q ((List.mem_cons.mp hmem).resolve_left hne)
  have hbefore : ∀ q, s.Resident q → (s.entryOf last p).before (s.entryOf last q) = true := by
    intro q hq
    have hle := hleast q hq
    have hpos := h.freq_pos p hp
    rw [RefEntry.before_iff]
    rcases Nat.decEq q p with hne | rfl
    · rcases Int.lt_or_eq_of_le hle with hlt | heq
      · left
        show (s.heap p).freq.toNat < (s.heap q).freq.toNat
        omega
      · right
        exact ⟨congrArg Int.toNat heq, Nat.le_of_lt (hlater q hq heq.symm hne)⟩
    · exact .inr ⟨rfl, Nat.le_refl _⟩
  have hmem : s.entryOf last p ∈ r.entries := by
    rw [ht.entries_eq]
    exact List.mem_map_of_mem hp
  have hsome : r.victim.isSome := by
    rw [RefLfu.victim, List.find?_isSome]
    refine ⟨_, hmem, List.all_eq_true.mpr fun e he => ?_⟩
    rw [ht.entries_eq] at he
    obtain ⟨q, hq, rfl⟩ := List.mem_map.mp he
    exact hbefore q hq
  obtain ⟨e, he⟩ := Option.isSome_iff_exists.mp hsome
  have hfound : r.entries.all e.before = true := by
    have hpred := List.find?_some he
    exact hpred
  have hall := List.all_eq_true.mp hfound _ hmem
  have he' := List.mem_of_find?_eq_some he
  rw [ht.entries_eq] at he'
  obtain ⟨q, hq, rfl⟩ := List.mem_map.mp he'
  have hqp : q = p := by
    by_contra hne
    have hle := hleast q hq
    have hpos := h.freq_pos p hp
    rcases RefEntry.before_iff.mp hall with hlt | ⟨heq, hlast⟩
    · have hlt' : (s.heap q).freq.toNat < (s.heap p).freq.toNat := hlt
      omega
    · have heq' : (s.heap q).freq.toNat = (s.heap p).freq.toNat := heq
      have hlater' := hlater q hq (by omega) hne
      exact absurd hlast (Nat.not_le.mpr hlater')
  rw [he, hqp]

/-- **An eviction.** -/
theorem Simulates.evict {s : RainLfu Key Value} {r : RefLfu Key Value} (h : s.Simulates r)
    (hfull : (s.size : Int) = s.capacity_) (env : Env Key) :
    ∃ t, s.kickOut env = some t ∧ t.Mirrors r.evict ∧ (t.size : Int) < t.capacity_ ∧
      ∀ key, s.nodeMap_.lookup key = none → t.nodeMap_.lookup key = none := by
  have hne : s.size ≠ 0 := by
    have hpos := h.capacity_pos
    omega
  obtain ⟨p, t, hkick, hev, hlinked, hcap, -, hmin⟩ := kickOut_spec h.linked h.minFreqOk hne env
  have hheap := kickOut_heap hkick
  have hsize := hev.size_eq
  refine ⟨t, hkick, ?_, by rw [hcap]; omega, ?_⟩
  · obtain ⟨last, htimed⟩ := h.timed
    -- the evicted node heads the list of its frequency
    obtain ⟨rest, hfirst⟩ : ∃ rest, s.nodesAt (s.heap p).freq = p :: rest := by
      obtain ⟨l, hl, hhead⟩ := Option.bind_eq_some_iff.mp hev.first
      obtain ⟨⟨q, hq, hqfreq⟩, hlow⟩ := h.minFreqOk hne
      have hpmem : p ∈ s.nodesAt s.minFreq_ := by
        rw [nodesAt, hl]
        exact List.mem_of_head? hhead
      have hfreq := ((h.linked.mem_nodesAt _ _).mp hpmem).2
      obtain ⟨rest, hrest⟩ := List.head?_eq_some_iff.mp hhead
      exact ⟨rest, by rw [hfreq, nodesAt, hl]; exact hrest⟩
    have hvictim := htimed.victim_eq h.linked hev.resident hfirst hev.least
    have hevict : r.evict = ⟨r.capacity, r.clock,
        r.entries.filter (fun e => e.key ≠ (s.heap p).key)⟩ := by
      rw [RefLfu.evict, hvictim]
      rfl
    rw [hevict]
    refine ⟨hlinked, hcap ▸ h.capacity_pos, hcap.trans h.capacity_eq, ?_, hmin ▸ h.minFreq_pos,
      last, ?_, ?_, ?_⟩
    · have hle := h.size_le
      rw [hcap]
      omega
    · have hentry : t.entryOf last = s.entryOf last := by
        funext q
        rw [entryOf, entryOf, hheap]
      have hptrs : t.nodePtrs = s.nodePtrs.filter (fun q => (s.heap q).key ≠ (s.heap p).key) := by
        rw [nodePtrs, hev.nodeMap_eq, entries_erase, nodePtrs, List.filter_map]
        congr 1
        refine List.filter_congr fun entry hentry => ?_
        have hkeyed := h.linked.keyed entry.1 entry.2 (AList.mem_lookup_iff.mpr hentry)
        simp only [Function.comp_apply, hkeyed]
      rw [hptrs, hentry, htimed.entries_eq, List.filter_map]
      rfl
    · intro g
      rcases Int.decEq g (s.heap p).freq with hg | rfl
      · rw [hev.nodesAt_other g hg]
        exact htimed.ordered g
      · rw [hev.nodesAt_own]
        exact (htimed.ordered _).sublist List.erase_sublist
    · intro q hq
      exact htimed.last_lt q ((hev.resident_iff q).mp hq).1
  · exact fun key hkey => hev.lookup_none hkey

/-- A `put` of a new key: the eviction if the cache is full, then the insertion. -/
theorem Simulates.putInternal {s : RainLfu Key Value} {r : RefLfu Key Value} (h : s.Simulates r)
    {key : Key} (value : Value) (hkey : s.nodeMap_.lookup key = none) (env : Env Key) :
    ∃ t, s.putInternal env key value = some t ∧
      (t.curAverageNum_ ≤ t.maxAverageNum_ →
        t.Simulates ((if r.entries.length = r.capacity then r.evict else r).insert key value)) := by
  have hlength : r.entries.length = s.size := by
    obtain ⟨last, ht⟩ := h.timed
    rw [ht.entries_eq, List.length_map, size_eq_length_nodePtrs]
  have hcap := h.capacity_eq
  by_cases hfull : (s.size : Int) = s.capacity_
  · obtain ⟨s₁, hkick, hmirrors, hroom, hkeep⟩ := h.evict hfull env
    obtain ⟨s₂, t, hadd, ht, hsim⟩ := hmirrors.insert value (hkeep key hkey) hroom env
    refine ⟨t.setMinFreq (min t.minFreq_ 1), ?_, fun haverage => ?_⟩
    · simp only [RainLfu.putInternal, if_pos hfull, hkick, Option.bind_eq_bind, Option.bind_some,
        hadd, ht]
    · rw [if_pos (by omega)]
      exact hsim haverage
  · have hroom : (s.size : Int) < s.capacity_ := lt_of_le_of_ne h.size_le hfull
    obtain ⟨s₂, t, hadd, ht, hsim⟩ := h.toMirrors.insert value hkey hroom env
    refine ⟨t.setMinFreq (min t.minFreq_ 1), ?_, fun haverage => ?_⟩
    · simp only [RainLfu.putInternal, if_neg hfull, Option.bind_eq_bind, Option.bind_some, hadd,
        ht]
    · rw [if_neg (by omega)]
      exact hsim haverage

/-- Two empty caches; the `minFreq_` of an empty cache is not looked at. -/
theorem simulates_empty {s : RainLfu Key Value} {r : RefLfu Key Value} (hmap : s.nodeMap_ = ∅)
    (hlists : s.freqToFreqList_ = ∅) (hcap : 1 ≤ s.capacity_) (heq : s.capacity_ = r.capacity)
    (hmin : 1 ≤ s.minFreq_) (hentries : r.entries = []) : s.Simulates r := by
  have hptrs : s.nodePtrs = [] := by
    rw [nodePtrs, hmap]
    rfl
  have hsize : s.size = 0 := by
    rw [size_eq_length_nodePtrs, hptrs]
    rfl
  have hnodes : ∀ f, s.nodesAt f = [] := by
    intro f
    simp [nodesAt, listAt, hlists]
  refine ⟨⟨linked_of_empty hmap hlists, hcap, heq, by omega, hmin, fun _ => 0, ?_, fun f => ?_,
    fun p hp => absurd hp (not_resident_of_empty hmap p)⟩, fun hne => absurd hsize hne⟩
  · rw [hentries, hptrs]
    rfl
  · rw [hnodes f]
    exact List.Pairwise.nil

/-- **One operation on both caches.** -/
theorem Simulates.perform {s : RainLfu Key Value} {r : RefLfu Key Value} (h : s.Simulates r)
    (env : Env Key) (op : Op Key Value)
    (hquiet : ∀ t, s.apply env op = some t → s.Accesses op →
      t.curAverageNum_ ≤ t.maxAverageNum_) :
    ∃ t, s.apply env op = some t ∧ s.perform env op = some (t, (r.perform op).2) ∧
      t.Simulates (r.perform op).1 := by
  obtain ⟨last, htimed⟩ := h.timed
  have hcap : s.capacity_ ≠ 0 := by
    have hpos := h.capacity_pos
    omega
  cases op with
  | put key value =>
    have hfind := htimed.find_eq h.linked key
    cases hlook : s.nodeMap_.lookup key with
    | some p =>
      rw [hlook, Option.map_some] at hfind
      have hput : ∀ v t, (s.setValue p value).getInternal env p = some (v, t) →
          s.put env key value = some t := by
        intro v t ht
        rw [RainLfu.put, if_neg hcap]
        simp only [hlook, ht, Option.map_some]
      obtain ⟨t, ht, hsim⟩ := (h.setValue hlook value).hit hlook env
        (fun v t ht => hquiet t (hput v t ht) hcap)
      have hvalue : ((s.setValue p value).heap p).value = value := by simp
      have hreference : r.perform (.put key value) = (r.access key value, none) := by
        simp only [RefLfu.perform, hfind]
      refine ⟨t, hput _ t ht, ?_, ?_⟩
      · rw [hreference, RainLfu.perform, hput _ t ht]
        rfl
      · rw [hvalue] at hsim
        rw [hreference]
        -- storing the value first and then counting the access is one access
        have haccess : RefLfu.access { r with entries := r.entries.map (fun e =>
            if e.key = key then { e with value := value } else e) } key value =
            r.access key value := by
          simp only [RefLfu.access, List.map_map]
          congr 1
          refine List.map_congr_left fun e _ => ?_
          simp only [Function.comp_apply]
          by_cases hkey : e.key = key
          · rw [if_pos hkey, if_pos hkey, if_pos hkey]
          · rw [if_neg hkey, if_neg hkey]
        rw [haccess] at hsim
        exact hsim
    | none =>
      rw [hlook, Option.map_none] at hfind
      obtain ⟨t, ht, hsim⟩ := h.putInternal value hlook env
      have hput : s.put env key value = some t := by
        rw [RainLfu.put, if_neg hcap]
        simp only [hlook, ht]
      have hreference : r.perform (.put key value) =
          ((if r.entries.length = r.capacity then r.evict else r).insert key value, none) := by
        simp only [RefLfu.perform, hfind]
      refine ⟨t, hput, ?_, ?_⟩
      · rw [hreference, RainLfu.perform, hput]
        rfl
      · rw [hreference]
        exact hsim (hquiet t hput hcap)
  | get key =>
    have hfind := htimed.find_eq h.linked key
    cases hlook : s.nodeMap_.lookup key with
    | some p =>
      rw [hlook, Option.map_some] at hfind
      have hget : ∀ v t, s.getInternal env p = some (v, t) → s.get env key = some (some v, t) := by
        intro v t ht
        simp only [RainLfu.get, hlook, ht, Option.map_some]
      have happly : ∀ v t, s.getInternal env p = some (v, t) →
          s.apply env (.get key) = some t := by
        intro v t ht
        simp only [RainLfu.apply, hget v t ht, Option.map_some]
      obtain ⟨t, ht, hsim⟩ := h.hit hlook env
        (fun v t ht => hquiet t (happly v t ht) (by simp [Accesses, hlook]))
      have hreference : r.perform (.get key) =
          (r.access key (s.heap p).value, some (s.heap p).value) := by
        simp only [RefLfu.perform, hfind, entryOf]
      refine ⟨t, happly _ t ht, ?_, ?_⟩
      · rw [hreference, RainLfu.perform, hget _ t ht]
        rfl
      · rw [hreference]
        exact hsim
    | none =>
      rw [hlook, Option.map_none] at hfind
      have hget : s.get env key = some (none, s) := by
        simp only [RainLfu.get, hlook]
      have hreference : r.perform (.get key) = (r, none) := by
        simp only [RefLfu.perform, hfind]
      refine ⟨s, ?_, ?_, ?_⟩
      · simp only [RainLfu.apply, hget, Option.map_some]
      · rw [hreference, RainLfu.perform, hget]
        rfl
      · rw [hreference]
        exact h
  | purge =>
    exact ⟨s.purge, rfl, rfl,
      simulates_empty rfl rfl h.capacity_pos h.capacity_eq h.minFreq_pos rfl⟩

/-! ## §5 Runs -/

/-- From caches that agree, a run without aging goes on in agreement. -/
theorem Simulates.run {s : RainLfu Key Value} {r : RefLfu Key Value} (h : s.Simulates r)
    (ops : List (Op Key Value × Env Key)) (hquiet : s.RunQuiet ops) : s.Matches r ops := by
  induction ops generalizing s r with
  | nil => exact h.sameResidents
  | cons head rest ih =>
    obtain ⟨op, env⟩ := head
    obtain ⟨t, happly, hperform, hsim⟩ := h.perform env op (fun t ht => (hquiet t ht).1)
    exact ⟨h.sameResidents, t, hperform, ih hsim (hquiet t happly).2⟩

/-- **Without aging `RainLfu` is an LFU cache.** In every run in which no call of `addFreqNum`
    finds the average above its maximum, every `get` has the result of the reference, and after
    every operation both caches hold the same pairs. The counters are unbounded here; those of the
    code are `int`s, which stay in range with fewer than `2 ^ 31` accesses. -/
theorem lfu_refines_reference [Inhabited Key] [Inhabited Value] (capacity maxAverageNum : Int)
    (hcap : 1 ≤ capacity) (ops : List (Op Key Value × Env Key))
    (hquiet : (new capacity maxAverageNum : RainLfu Key Value).RunQuiet ops) :
    (new capacity maxAverageNum : RainLfu Key Value).Matches (RefLfu.new capacity.toNat) ops := by
  refine Simulates.run (simulates_empty rfl rfl hcap ?_ (show (1 : Int) ≤ int8Max by decide) rfl)
    ops hquiet
  show capacity = (capacity.toNat : Int)
  omega

/-- The averages of a run, checked by evaluation. -/
def checkQuiet (s : RainLfu Key Value) : List (Op Key Value × Env Key) → Bool
  | [] => true
  | (op, env) :: rest =>
    match s.apply env op with
    | none => true
    | some t => decide (t.curAverageNum_ ≤ t.maxAverageNum_) && checkQuiet t rest

theorem runQuiet_of_check {s : RainLfu Key Value} {ops : List (Op Key Value × Env Key)}
    (h : s.checkQuiet ops = true) : s.RunQuiet ops := by
  induction ops generalizing s with
  | nil => trivial
  | cons head rest ih =>
    intro t ht
    simp only [checkQuiet, ht, Bool.and_eq_true, decide_eq_true_eq] at h
    exact ⟨fun _ => h.1, ih h.2⟩

/-- Two keys, a hit, an eviction of the other key, a miss and a purge. -/
def evictionRun : List (Op Nat Nat × Env Nat) :=
  [.put 1 10, .put 2 20, .get 1, .put 3 30, .get 2, .put 1 11, .get 1, .purge, .get 1].map
    (fun op => (op, plainEnv 0))

theorem evictionRun_refines_reference :
    (new 2 10 : RainLfu Nat Nat).RunQuiet evictionRun ∧
    (new 2 10 : RainLfu Nat Nat).Matches (RefLfu.new 2) evictionRun ∧
    ((RefLfu.new 2 : RefLfu Nat Nat).perform (.put 1 10)).1.perform (.get 1) =
      (⟨2, 2, [⟨1, 10, 2, 1⟩]⟩, some 10) := by
  have hquiet : (new 2 10 : RainLfu Nat Nat).RunQuiet evictionRun :=
    runQuiet_of_check (by decide +kernel)
  exact ⟨hquiet, lfu_refines_reference 2 10 (by decide) evictionRun hquiet, rfl⟩

end RainLfu

end RainWebServer.Util
