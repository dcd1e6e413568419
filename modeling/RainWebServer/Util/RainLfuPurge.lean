import RainWebServer.Lib.AssocMap
import RainWebServer.Lib.Lockstep
import RainWebServer.Util.RainLfuAllocated

/-!
# RainLfu: A Purged Cache against a New One

`purge` of `include/util/RainLfu.h` clears the two maps and leaves `minFreq_`, `curAverageNum_` and
`curTotalNum_`. The stale `minFreq_` is overwritten by the first insertion and the stale average
is never read, but the stale total stays in every later average.

The two caches are compared by a simulation: `Shifted k T` relates a new cache to a purged one
whose addresses are larger by `k` and whose total is larger by `T`. Every operation keeps it, as
long as the access that it counts starts an aging pass in both caches or in neither.

## Main result

`purged_results_eq_new` : under that condition on its operations, a run has the same results on the
purged cache as on the new one
-/

namespace RainWebServer.Util

open RainWebServer.Lib

/-! ## §1 Lists at shifted addresses -/

/-- The list with its nodes at addresses larger by `k`. -/
def FreqList.shift (k : Nat) (l : FreqList) : FreqList := { l with nodes := l.nodes.map (· + k) }

namespace FreqList

variable (k : Nat) (l : FreqList) (x : NodePtr)

theorem shift_addNode : (l.addNode x).shift k = (l.shift k).addNode (x + k) := by
  simp [shift, addNode]

theorem shift_removeNode : (l.removeNode x).shift k = (l.shift k).removeNode (x + k) := by
  have herase := List.map_erase (add_left_injective k) (a := x) l.nodes
  simp only [shift, removeNode, herase]

theorem isEmpty_shift : (l.shift k).isEmpty = l.isEmpty := by
  simp [shift, isEmpty]

theorem getFirstNode_shift : (l.shift k).getFirstNode = l.getFirstNode.map (· + k) := by
  simp [shift, getFirstNode]

end FreqList

namespace RainLfu

variable {Key Value : Type}

/-! ## §2 Shifted caches -/

/-- The cache `p` is `q` with addresses larger by `k` and a total larger by `T`; `m` relates the
    least frequencies. Nothing is said of the averages. -/
structure Shifted (k : Nat) (T : Int) (m : Int → Int → Prop) (q p : RainLfu Key Value) : Prop where
  capacity : p.capacity_ = q.capacity_
  maxAverageNum : p.maxAverageNum_ = q.maxAverageNum_
  total : p.curTotalNum_ = q.curTotalNum_ + T
  nodeMap : p.nodeMap_ = mapValues (· + k) q.nodeMap_
  lists : p.freqToFreqList_ = mapValues (Option.map (FreqList.shift k)) q.freqToFreqList_
  heap : ∀ x, p.heap (x + k) = q.heap x
  fresh : p.fresh = q.fresh + k
  minFreq : m q.minFreq_ p.minFreq_

namespace Shifted

variable {k : Nat} {T : Int} {m : Int → Int → Prop} {q p : RainLfu Key Value}

theorem size_eq (h : Shifted k T m q p) : p.size = q.size := by
  simp [size, h.nodeMap]

theorem nodePtrs_eq (h : Shifted k T m q p) : p.nodePtrs = q.nodePtrs.map (· + k) := by
  simp [nodePtrs, h.nodeMap, mapEntry, Sigma.map]

theorem listAt_eq (h : Shifted k T m q p) (f : Int) :
    p.listAt f = (q.listAt f).map (FreqList.shift k) := by
  rw [listAt, h.lists, lookup_mapValues, listAt]
  cases q.freqToFreqList_.lookup f with
  | none => rfl
  | some l => rfl

/-- An update of one node. -/
theorem update_heap (h : Shifted k T m q p) (x : NodePtr) (n : Node Key Value) (y : NodePtr) :
    Function.update p.heap (x + k) n (y + k) = Function.update q.heap x n y := by
  by_cases hy : y = x
  · rw [hy, Function.update_self, Function.update_self]
  · have hyk : y + k ≠ x + k := fun heq => hy (Nat.add_right_cancel heq)
    rw [Function.update_of_ne hy, Function.update_of_ne hyk, h.heap]

theorem setFreq (h : Shifted k T m q p) (x : NodePtr) (f : Int) :
    Shifted k T m (q.setFreq x f) (p.setFreq (x + k) f) := by
  refine ⟨h.capacity, h.maxAverageNum, h.total, h.nodeMap, h.lists, fun y => ?_, h.fresh, h.minFreq⟩
  rw [setFreq_heap, setFreq_heap, h.heap x]
  exact h.update_heap x _ y

theorem setValue (h : Shifted k T m q p) (x : NodePtr) (v : Value) :
    Shifted k T m (q.setValue x v) (p.setValue (x + k) v) := by
  refine ⟨h.capacity, h.maxAverageNum, h.total, h.nodeMap, h.lists, fun y => ?_, h.fresh, h.minFreq⟩
  rw [setValue_heap, setValue_heap, h.heap x]
  exact h.update_heap x _ y

theorem setLists (h : Shifted k T m q p) (lists : AList (fun _ : Int => Option FreqList)) :
    Shifted k T m (q.setLists lists)
      (p.setLists (mapValues (Option.map (FreqList.shift k)) lists)) :=
  ⟨h.capacity, h.maxAverageNum, h.total, h.nodeMap, rfl, h.heap, h.fresh, h.minFreq⟩

theorem setMinFreq (h : Shifted k T m q p) {m' : Int → Int → Prop} {f g : Int} (hfg : m' f g) :
    Shifted k T m' (q.setMinFreq f) (p.setMinFreq g) :=
  ⟨h.capacity, h.maxAverageNum, h.total, h.nodeMap, h.lists, h.heap, h.fresh, hfg⟩

theorem mono (h : Shifted k T m q p) {m' : Int → Int → Prop} (hm : ∀ a b, m a b → m' a b) :
    Shifted k T m' q p :=
  ⟨h.capacity, h.maxAverageNum, h.total, h.nodeMap, h.lists, h.heap, h.fresh, hm _ _ h.minFreq⟩

theorem setTotal (h : Shifted k T m q p) (n : Int) :
    Shifted k T m (q.setTotal n) (p.setTotal (n + T)) :=
  ⟨h.capacity, h.maxAverageNum, rfl, h.nodeMap, h.lists, h.heap, h.fresh, h.minFreq⟩

theorem removeFromFreqList (h : Shifted k T m q p) (x : NodePtr) :
    Option.Rel (Shifted k T m) (q.removeFromFreqList x) (p.removeFromFreqList (x + k)) := by
  simp only [RainLfu.removeFromFreqList, h.heap, h.listAt_eq, h.lists]
  cases q.listAt (q.heap x).freq with
  | none => exact .none
  | some l =>
    refine .some ?_
    have hlists := mapValues_insert (Option.map (FreqList.shift k)) q.freqToFreqList_
      (q.heap x).freq (some (l.removeNode x))
    rw [Option.map_some, FreqList.shift_removeNode] at hlists
    rw [← hlists]
    exact h.setLists _

theorem addToFreqList (h : Shifted k T m q p) (x : NodePtr) :
    Option.Rel (Shifted k T m) (q.addToFreqList x) (p.addToFreqList (x + k)) := by
  -- the list of the frequency, made if it does not exist
  have hmade : (if (q.heap x).freq ∈ p.freqToFreqList_ then p.freqToFreqList_
      else p.freqToFreqList_.insert (q.heap x).freq (some (FreqList.new (q.heap x).freq))) =
      mapValues (Option.map (FreqList.shift k)) (if (q.heap x).freq ∈ q.freqToFreqList_ then
        q.freqToFreqList_
      else q.freqToFreqList_.insert (q.heap x).freq
        (some (FreqList.new (q.heap x).freq))) := by
    rw [h.lists]
    by_cases hmem : (q.heap x).freq ∈ q.freqToFreqList_
    · rw [if_pos hmem, if_pos ((mem_mapValues ..).mpr hmem)]
    · rw [if_neg hmem, if_neg (fun hx => hmem ((mem_mapValues ..).mp hx)), mapValues_insert]
      rfl
  have hfreq : (p.heap (x + k)).freq = (q.heap x).freq := by rw [h.heap]
  unfold RainLfu.addToFreqList
  generalize (p.heap (x + k)).freq = freq at hfreq ⊢
  subst hfreq
  simp only [hmade]
  generalize (if (q.heap x).freq ∈ q.freqToFreqList_ then q.freqToFreqList_
    else q.freqToFreqList_.insert (q.heap x).freq (some (FreqList.new (q.heap x).freq))) = lists
  rw [lookup_mapValues]
  cases lists.lookup (q.heap x).freq with
  | none => exact .none
  | some l =>
    cases l with
    | none => exact .none
    | some l =>
      refine .some ?_
      have hlists := mapValues_insert (Option.map (FreqList.shift k)) lists (q.heap x).freq
        (some (l.addNode x))
      rw [Option.map_some, FreqList.shift_addNode] at hlists
      rw [← hlists]
      exact h.setLists _

theorem ageNode (h : Shifted k T m q p) (x : NodePtr) :
    Option.Rel (Shifted k T m) (q.ageNode x) (p.ageNode (x + k)) := by
  refine lockstep_bind (h.removeFromFreqList x) fun q₁ p₁ _ _ h₁ => ?_
  simp only [h₁.heap, h₁.maxAverageNum]
  exact (h₁.setFreq x _).addToFreqList x

theorem leastListed_mapValues (lists : List (Σ _ : Int, Option FreqList)) (start : Int) :
    leastListed start (lists.map (mapEntry (Option.map (FreqList.shift k)))) =
      leastListed start lists := by
  induction lists generalizing start with
  | nil => rfl
  | cons pair lists ih =>
    obtain ⟨f, l⟩ := pair
    cases l with
    | none => exact ih start
    | some l =>
      have hempty := l.isEmpty_shift k
      have hstep : leastListed start (⟨f, some l⟩ :: lists) =
          leastListed (if l.isEmpty then start else min start f) lists := rfl
      rw [hstep, ← ih, ← hempty]
      rfl

theorem updateMinFreq (h : Shifted k T m q p) (hm : ∀ a, m a a) :
    Shifted k T m q.updateMinFreq p.updateMinFreq := by
  have hleast : leastListed int8Max p.freqToFreqList_.entries =
      leastListed int8Max q.freqToFreqList_.entries := by
    rw [h.lists, entries_mapValues, leastListed_mapValues]
  simp only [RainLfu.updateMinFreq, hleast]
  exact h.setMinFreq (hm _)

end Shifted

/-! ## §3 The environment -/

/-- The two caches iterate `nodeMap_` in the same order, and have the same key in their
    sentinels. -/
structure EnvsMatch (k : Nat) (envNew envPurged : Env Key) : Prop where
  order : ∀ l, envPurged.order (l.map (· + k)) = (envNew.order l).map (· + k)
  sentinelKey : envPurged.sentinelKey = envNew.sentinelKey

namespace Shifted

variable {k : Nat} {T : Int} {m : Int → Int → Prop} {q p : RainLfu Key Value}
  {envNew envPurged : Env Key}

theorem handleOverMaxAverageNum (h : Shifted k T m q p) (hm : ∀ a, m a a)
    (henv : EnvsMatch k envNew envPurged) :
    Option.Rel (Shifted k T m) (q.handleOverMaxAverageNum envNew)
      (p.handleOverMaxAverageNum envPurged) := by
  simp only [RainLfu.handleOverMaxAverageNum, h.size_eq, h.nodePtrs_eq, henv.order]
  split
  · exact .some h
  · refine lockstep_bind (lockstep_foldlM (fun _ _ x h => h.ageNode x) _ h) fun q₁ p₁ _ _ h₁ => ?_
    exact .some (h₁.updateMinFreq hm)

/-- The access that is counted starts an aging pass in both caches or in neither. -/
theorem addFreqNum (h : Shifted k T m q p) (hm : ∀ a, m a a)
    (henv : EnvsMatch k envNew envPurged) (hfires : p.AgingFires ↔ q.AgingFires) :
    Option.Rel (Shifted k T m) (q.addFreqNum envNew) (p.addFreqNum envPurged) := by
  -- what `purge` has left stays in the total
  have htotal : Shifted k T m (q.setTotal (q.curTotalNum_ + 1))
      (p.setTotal (p.curTotalNum_ + 1)) := by
    have hsum : p.curTotalNum_ + 1 = q.curTotalNum_ + 1 + T := by
      rw [h.total]
      omega
    rw [hsum]
    exact h.setTotal _
  by_cases hq : q.AgingFires
  · have hp : p.AgingFires := hfires.mpr hq
    unfold RainLfu.addFreqNum
    rw [if_pos (by exact hq), if_pos (by exact hp)]
    exact htotal.handleOverMaxAverageNum hm henv
  · have hp : ¬p.AgingFires := fun hp => hq (hfires.mp hp)
    rw [addFreqNum_of_not_fires envNew hq, addFreqNum_of_not_fires envPurged hp]
    exact .some htotal

section Keyed

variable [DecidableEq Key]

theorem eraseKey (h : Shifted k T m q p) (key : Key) :
    Shifted k T m (q.eraseKey key) (p.eraseKey key) := by
  refine ⟨h.capacity, h.maxAverageNum, h.total, ?_, h.lists, h.heap, h.fresh, h.minFreq⟩
  rw [eraseKey_nodeMap_, eraseKey_nodeMap_, h.nodeMap, mapValues_erase]

omit [DecidableEq Key] in
theorem decreaseFreqNum (h : Shifted k T m q p) (num : Int) :
    Shifted k T m (q.decreaseFreqNum num) (p.decreaseFreqNum num) := by
  have hsum : p.curTotalNum_ - num = q.curTotalNum_ - num + T := by
    rw [h.total]
    omega
  unfold RainLfu.decreaseFreqNum
  rw [hsum]
  exact h.setTotal _

/-- An eviction looks at `minFreq_`, which is to be the same in both. -/
theorem kickOut (h : Shifted k T Eq q p) (henv : EnvsMatch k envNew envPurged) :
    Option.Rel (Shifted k T Eq) (q.kickOut envNew) (p.kickOut envPurged) := by
  simp only [RainLfu.kickOut, ← h.minFreq, h.listAt_eq, henv.sentinelKey]
  cases q.listAt q.minFreq_ with
  | none => exact .none
  | some l =>
    simp only [Option.map_some, Option.bind_eq_bind, Option.bind_some, FreqList.getFirstNode_shift]
    cases l.getFirstNode with
    | none =>
      -- the list is empty: a sentinel goes, with the same key in both
      cases q.listAt 1 with
      | none => exact .none
      | some l₁ => exact .some ((h.eraseKey _).decreaseFreqNum _)
    | some x =>
      refine lockstep_bind (h.removeFromFreqList x) fun q₁ p₁ _ _ h₁ => ?_
      simp only [h₁.heap]
      exact .some ((h₁.eraseKey _).decreaseFreqNum _)

theorem makeNode (h : Shifted k T m q p) (key : Key) (value : Value) :
    Shifted k T m (q.makeNode key value) (p.makeNode key value) := by
  refine ⟨h.capacity, h.maxAverageNum, h.total, ?_, h.lists, fun y => ?_, ?_, h.minFreq⟩
  · rw [makeNode_nodeMap_, makeNode_nodeMap_, h.nodeMap, h.fresh, mapValues_insert]
  · rw [makeNode_heap, makeNode_heap, h.fresh]
    exact h.update_heap _ _ y
  · rw [makeNode_fresh, makeNode_fresh, h.fresh, Nat.add_right_comm]

omit [DecidableEq Key] in
/-- A hit looks at `minFreq_` too. -/
theorem getInternal (h : Shifted k T Eq q p) (henv : EnvsMatch k envNew envPurged) (x : NodePtr)
    (hfires : p.AgingFires ↔ q.AgingFires) :
    Option.Rel (fun a b => a.1 = b.1 ∧ Shifted k T Eq a.2 b.2) (q.getInternal envNew x)
      (p.getInternal envPurged (x + k)) := by
  simp only [RainLfu.getInternal, h.heap]
  refine lockstep_bind (h.removeFromFreqList x) fun q₁ p₁ hq₁ hp₁ h₁ => ?_
  simp only [h₁.heap]
  refine lockstep_bind ((h₁.setFreq x _).addToFreqList x) fun q₂ p₂ hq₂ hp₂ h₂ => ?_
  -- both find the old list empty, or both do not
  have hmoved : p₂.leftMinList (x + k) = q₂.leftMinList x := by
    simp only [leftMinList, h₂.heap, ← h₂.minFreq, h₂.listAt_eq]
    split
    · cases q₂.listAt ((q₂.heap x).freq - 1) with
      | none => rfl
      | some l => exact congrArg some (l.isEmpty_shift k)
    · rfl
  rw [hmoved]
  refine lockstep_bind (R := Eq) ?_ fun moved moved' _ _ hmoved => ?_
  · cases q₂.leftMinList x with
    | none => exact .none
    | some b => exact .some rfl
  subst hmoved
  -- the access is counted as it would be before the move
  have hfires₂ : p₂.AgingFires ↔ q₂.AgingFires := by
    obtain ⟨lists, rfl⟩ := exists_setLists_of_remove hq₁
    obtain ⟨lists', rfl⟩ := exists_setLists_of_remove hp₁
    obtain ⟨lists, rfl⟩ := exists_setLists_of_add hq₂
    obtain ⟨lists', rfl⟩ := exists_setLists_of_add hp₂
    exact hfires
  have h₃ : Shifted k T Eq (if moved then q₂.setMinFreq (q₂.minFreq_ + 1) else q₂)
      (if moved then p₂.setMinFreq (p₂.minFreq_ + 1) else p₂) := by
    split
    · exact h₂.setMinFreq (congrArg (· + 1) h₂.minFreq)
    · exact h₂
  have hfires₃ : (if moved then p₂.setMinFreq (p₂.minFreq_ + 1) else p₂).AgingFires ↔
      (if moved then q₂.setMinFreq (q₂.minFreq_ + 1) else q₂).AgingFires := by
    split
    · exact hfires₂
    · exact hfires₂
  refine lockstep_bind (h₃.addFreqNum (fun _ => rfl) henv hfires₃) fun q₄ p₄ _ _ h₄ => ?_
  exact .some ⟨rfl, h₄⟩

end Keyed

end Shifted

/-! ## §4 Operations -/

section Keyed

variable [DecidableEq Key]

/-- The access that is counted next starts an aging pass or not, whether or not `T` is taken off
    the total. -/
def SameDecision (T : Int) (s : RainLfu Key Value) : Prop :=
  s.averageOf (s.curTotalNum_ + 1) > s.maxAverageNum_ ↔
    s.averageOf (s.curTotalNum_ - T + 1) > s.maxAverageNum_

instance (T : Int) (s : RainLfu Key Value) : Decidable (SameDecision T s) :=
  inferInstanceAs (Decidable (_ ↔ _))

/-- The cache as it is when the operation counts its access, as far as nodes and total go. -/
def counting (s : RainLfu Key Value) (env : Env Key) : Op Key Value → Option (RainLfu Key Value)
  | .put key value =>
    match s.nodeMap_.lookup key with
    | some _ => some s
    | none => (s.makeRoom env).map (makeNode · key value)
  | .get key => (s.nodeMap_.lookup key).map fun _ => s
  | .purge => none

/-- The stale part `T` of the total does not decide whether the operation starts an aging pass. -/
def StaleHarmless (T : Int) (s : RainLfu Key Value) (env : Env Key) (op : Op Key Value) : Prop :=
  ∀ c, s.counting env op = some c → SameDecision T c

/-- Two values of `minFreq_` that an insertion makes equal. -/
def MinClose (a b : Int) : Prop := a = b ∨ 1 ≤ a ∧ 1 ≤ b

/-- The purged cache follows the new one. Their least frequencies are the same, or there is no node
    yet. -/
def Follows (k : Nat) (T : Int) (q p : RainLfu Key Value) : Prop :=
  Shifted k T Eq q p ∨ Shifted k T MinClose q p ∧ q.nodeMap_ = ∅

variable {k : Nat} {T : Int} {m : Int → Int → Prop} {q p : RainLfu Key Value}
  {envNew envPurged : Env Key}

omit [DecidableEq Key] in
theorem Shifted.fires_iff (h : Shifted k T m q p) (hsame : SameDecision T p) :
    p.AgingFires ↔ q.AgingFires := by
  have hback : p.averageOf (p.curTotalNum_ - T + 1) = q.averageOf (q.curTotalNum_ + 1) := by
    rw [averageOf, averageOf, h.size_eq, h.total, Int.add_sub_cancel]
  rw [SameDecision, hback, h.maxAverageNum] at hsame
  rw [AgingFires, AgingFires, h.maxAverageNum]
  exact hsame

/-- An insertion makes the least frequencies equal. -/
theorem Shifted.insertNew (h : Shifted k T MinClose q p) (henv : EnvsMatch k envNew envPurged)
    {key : Key} {value : Value} (hsame : SameDecision T (p.makeNode key value)) :
    Option.Rel (Shifted k T Eq) (q.insertNew envNew key value)
      (p.insertNew envPurged key value) := by
  have hnode := h.makeNode key value
  simp only [RainLfu.insertNew, h.fresh]
  refine lockstep_bind (hnode.addToFreqList q.fresh) fun q₁ p₁ hq₁ hp₁ h₁ => ?_
  have hfires : p₁.AgingFires ↔ q₁.AgingFires := by
    have hbefore := hnode.fires_iff hsame
    obtain ⟨lists, rfl⟩ := exists_setLists_of_add hq₁
    obtain ⟨lists', rfl⟩ := exists_setLists_of_add hp₁
    exact hbefore
  refine lockstep_bind (h₁.addFreqNum (fun _ => .inl rfl) henv hfires) fun q₂ p₂ _ _ h₂ => ?_
  refine .some (h₂.setMinFreq ?_)
  rcases h₂.minFreq with heq | ⟨hq, hp⟩
  · rw [heq]
  · rw [min_eq_right hq, min_eq_right hp]

/-- A `put` of a new key. -/
theorem Follows.putInternal (h : Follows k T q p) (henv : EnvsMatch k envNew envPurged)
    (hcap : q.capacity_ ≠ 0) {key : Key} {value : Value}
    (hsame : ∀ s₁, p.makeRoom envPurged = some s₁ → SameDecision T (s₁.makeNode key value)) :
    Option.Rel (Shifted k T Eq) (q.putInternal envNew key value)
      (p.putInternal envPurged key value) := by
  have hroom : Option.Rel (Shifted k T MinClose) (q.makeRoom envNew) (p.makeRoom envPurged) := by
    unfold makeRoom
    rcases h with h | ⟨h, hempty⟩
    · rw [h.size_eq, h.capacity]
      split
      · exact lockstep_mono (h.kickOut henv) fun _ _ h₁ => h₁.mono fun _ _ => .inl
      · exact .some (h.mono fun _ _ => .inl)
    · -- a cache without nodes is not full
      have hsize : q.size = 0 := by
        rw [size, hempty]
        rfl
      have hfull : ¬((q.size : Int) = q.capacity_) := by
        rw [hsize]
        exact Ne.symm hcap
      rw [h.size_eq, h.capacity, if_neg hfull, if_neg hfull]
      exact .some h
  rw [putInternal_eq, putInternal_eq]
  exact lockstep_bind hroom fun q₁ p₁ _ hp₁ h₁ => h₁.insertNew henv (hsame p₁ hp₁)

/-- **One operation** has the same result on both caches, and the purged one goes on following. -/
theorem Follows.perform (h : Follows k T q p) (henv : EnvsMatch k envNew envPurged)
    {op : Op Key Value} (hop : StaleHarmless T p envPurged op) :
    Option.Rel (fun a b => Follows k T a.1 b.1 ∧ a.2 = b.2) (q.perform envNew op)
      (p.perform envPurged op) := by
  have hlookup : ∀ key, p.nodeMap_.lookup key = (q.nodeMap_.lookup key).map (· + k) := by
    intro key
    rcases h with h | ⟨h, -⟩
    · rw [h.nodeMap, lookup_mapValues]
    · rw [h.nodeMap, lookup_mapValues]
  -- a key that is found is resident, so the first insertion has been made
  have hfound : ∀ key x, q.nodeMap_.lookup key = some x → Shifted k T Eq q p := by
    intro key x hx
    rcases h with h | ⟨-, hempty⟩
    · exact h
    · rw [hempty] at hx
      cases hx
  have hcap : p.capacity_ = q.capacity_ := by
    rcases h with h | ⟨h, -⟩
    · exact h.capacity
    · exact h.capacity
  cases op with
  | put key value =>
    simp only [StaleHarmless, counting, hlookup] at hop
    simp only [RainLfu.perform, RainLfu.put, hlookup, hcap]
    split
    · exact .some ⟨h, rfl⟩
    · rename_i hne
      cases hx : q.nodeMap_.lookup key with
      | some x =>
        have hs := hfound key x hx
        simp only [hx, Option.map_some] at hop ⊢
        have hfires := (hs.setValue x value).fires_iff (hop p rfl)
        refine lockstep_map (lockstep_map ((hs.setValue x value).getInternal henv x hfires)
          (S := Shifted k T Eq) fun a b hab => hab.2) fun a b hab => ⟨.inl hab, rfl⟩
      | none =>
        simp only [hx, Option.map_none] at hop ⊢
        have hroom : ∀ s₁, p.makeRoom envPurged = some s₁ →
            SameDecision T (s₁.makeNode key value) :=
          fun s₁ hs₁ => hop _ (Option.map_eq_some_iff.mpr ⟨s₁, hs₁, rfl⟩)
        exact lockstep_map (h.putInternal henv hne hroom) fun a b hab => ⟨.inl hab, rfl⟩
  | get key =>
    simp only [StaleHarmless, counting, hlookup] at hop
    simp only [RainLfu.perform, RainLfu.get, hlookup]
    cases hx : q.nodeMap_.lookup key with
    | some x =>
      have hs := hfound key x hx
      have hfires := hs.fires_iff (hop p (by simp [hx]))
      simp only [Option.map_some, Option.map_map]
      exact lockstep_map (hs.getInternal henv x hfires) fun a b hab =>
        ⟨.inl hab.2, congrArg some hab.1⟩
    | none => exact .some ⟨h, rfl⟩
  | purge =>
    -- both are without nodes again, and the leftover stays
    refine .some ⟨.inr ⟨?_, rfl⟩, rfl⟩
    rcases h with h | ⟨h, -⟩
    · exact ⟨h.capacity, h.maxAverageNum, h.total, rfl, rfl, h.heap, h.fresh, .inl h.minFreq⟩
    · exact ⟨h.capacity, h.maxAverageNum, h.total, rfl, rfl, h.heap, h.fresh, h.minFreq⟩

/-! ## §5 Runs -/

/-- The results of a run: hits with their values, misses, and `none` for a `put`. -/
def results (s : RainLfu Key Value) : List (Op Key Value × Env Key) → Option (List (Option Value))
  | [] => some []
  | (op, env) :: rest =>
    (s.perform env op).bind fun next => (results next.1 rest).map (next.2 :: ·)

/-- Every operation of the run is one that the stale part of the total does not decide. -/
def RunStaleHarmless (T : Int) (s : RainLfu Key Value) : List (Op Key Value × Env Key) → Prop
  | [] => True
  | (op, env) :: rest => StaleHarmless T s env op ∧
    ∀ next, s.perform env op = some next → RunStaleHarmless T next.1 rest

/-- The same operations in matching environments. -/
def SameRun (k : Nat) : List (Op Key Value × Env Key) → List (Op Key Value × Env Key) → Prop :=
  List.Forall₂ fun onNew onPurged => onNew.1 = onPurged.1 ∧ EnvsMatch k onNew.2 onPurged.2

/-- From caches of which one follows the other, a run has the same results on both. -/
theorem Follows.results_eq {onNew onPurged : List (Op Key Value × Env Key)}
    (h : Follows k T q p) (hrun : SameRun k onNew onPurged)
    (hharmless : p.RunStaleHarmless T onPurged) : p.results onPurged = q.results onNew := by
  -- both runs go on together, from caches that follow each other
  induction hrun generalizing q p with
  | nil => rfl
  | @cons a b restNew restPurged hab _ ih =>
    obtain ⟨opNew, envNew⟩ := a
    obtain ⟨op, envPurged⟩ := b
    obtain ⟨hop, henv⟩ := hab
    change opNew = op at hop
    subst hop
    obtain ⟨hop, hrest⟩ := hharmless
    have hstep := h.perform henv hop
    rw [results, results]
    generalize q.perform envNew opNew = nextNew at hstep
    generalize p.perform envPurged opNew = nextPurged at hstep hrest
    cases hstep with
    | none => rfl
    | @some a b hab =>
      rw [Option.bind_some, Option.bind_some, ih hab.1 (hrest b rfl), hab.2]

omit [DecidableEq Key] in
/-- A cache that has been purged follows a new one. -/
theorem follows_purge [Inhabited Key] [Inhabited Value] {s : RainLfu Key Value} (h : s.Allocated) :
    Follows s.fresh s.curTotalNum_ (new s.capacity_ s.maxAverageNum_) s.purge := by
  refine .inr ⟨⟨rfl, rfl, (Int.zero_add _).symm, rfl, rfl, fun x => ?_, (Nat.zero_add _).symm,
    .inr ⟨show (1 : Int) ≤ int8Max by decide, h.minFreq_pos⟩⟩, rfl⟩
  exact h.unwritten _ (Nat.le_add_left _ _)

/-- **A purged cache against a new one.** After any history of operations, `purge`, and then any run
    of operations in which the total that `purge` has left never decides whether an access starts
    an aging pass: the results are those of the same run on a new cache with the same parameters,
    whenever both iterate `nodeMap_` in the same order. Which accesses start one is decided by the
    average as the code divides it (`divSize`); the counters do not overflow, for which fewer than
    `2 ^ 31` accesses are enough if the maximum is not negative. -/
theorem purged_results_eq_new [Inhabited Key] [Inhabited Value] {capacity maxAverageNum : Int}
    {history onNew onPurged : List (Op Key Value × Env Key)} {s : RainLfu Key Value}
    (hs : (new capacity maxAverageNum : RainLfu Key Value).applyAll history = some s)
    (hrun : SameRun s.fresh onNew onPurged)
    (hharmless : s.purge.RunStaleHarmless s.curTotalNum_ onPurged) :
    s.purge.results onPurged =
      (new s.capacity_ s.maxAverageNum_ : RainLfu Key Value).results onNew := by
  have hallocated := allocated_of_applyAll (allocated_new capacity maxAverageNum) hs
  exact (follows_purge hallocated).results_eq hrun hharmless

/-- The condition on a run, checked by evaluation. -/
def checkStaleHarmless (T : Int) (s : RainLfu Key Value) : List (Op Key Value × Env Key) → Bool
  | [] => true
  | (op, env) :: rest =>
    (s.counting env op).all (fun c => decide (SameDecision T c)) &&
      (s.perform env op).all fun next => checkStaleHarmless T next.1 rest

theorem runStaleHarmless_of_check {s : RainLfu Key Value} {ops : List (Op Key Value × Env Key)}
    (h : checkStaleHarmless T s ops = true) : s.RunStaleHarmless T ops := by
  induction ops generalizing s with
  | nil => trivial
  | cons head rest ih =>
    rw [checkStaleHarmless, Bool.and_eq_true, Option.all_eq_true, Option.all_eq_true] at h
    exact ⟨fun c hc => of_decide_eq_true (h.1 c hc), fun next hnext => ih (h.2 next hnext)⟩

end Keyed

/-- One key is put, hit, and meant to outlive the next two in a cache of two places. -/
def purgedRun : List (Op Nat Nat × Env Nat) :=
  [.put 1 10, .get 1, .put 2 20, .put 3 30, .get 1].map fun op => (op, plainEnv 0)

theorem purgedRun_sameRun (k : Nat) : SameRun k purgedRun purgedRun := by
  refine List.forall₂_same.mpr fun x hx => ?_
  obtain ⟨op, -, rfl⟩ := List.mem_map.mp hx
  exact ⟨rfl, fun _ => rfl, rfl⟩

/-- With a maximal average of 2, one access before the `purge` is enough: the stale total makes the
    hit start an aging pass, the key falls back to frequency 1 and is evicted. -/
theorem purgedRun_differs :
    ∃ s, (new 2 2 : RainLfu Nat Nat).applyAll [(.put 9 90, plainEnv 0)] = some s ∧
      SameRun s.fresh purgedRun purgedRun ∧
      s.purge.results purgedRun = some [none, some 10, none, none, none] ∧
      (new s.capacity_ s.maxAverageNum_ : RainLfu Nat Nat).results purgedRun =
        some [none, some 10, none, none, some 10] := by
  have hend : ((new 2 2 : RainLfu Nat Nat).applyAll [(.put 9 90, plainEnv 0)]).map
      (fun s => (s.purge.results purgedRun,
        (new s.capacity_ s.maxAverageNum_ : RainLfu Nat Nat).results purgedRun)) =
      some (some [none, some 10, none, none, none],
        some [none, some 10, none, none, some 10]) := by decide +kernel
  obtain ⟨s, hs, hpair⟩ := Option.map_eq_some_iff.mp hend
  obtain ⟨hpurged, hnew⟩ := Prod.mk.inj hpair
  exact ⟨s, hs, purgedRun_sameRun _, hpurged, hnew⟩

/-- With a maximal average of 10 the total of that access decides nothing. -/
theorem purgedRun_same_with_room :
    ∃ s, (new 2 10 : RainLfu Nat Nat).applyAll [(.put 9 90, plainEnv 0)] = some s ∧
      s.purge.results purgedRun =
        (new s.capacity_ s.maxAverageNum_ : RainLfu Nat Nat).results purgedRun := by
  have hend : ((new 2 10 : RainLfu Nat Nat).applyAll [(.put 9 90, plainEnv 0)]).map
      (fun s => checkStaleHarmless s.curTotalNum_ s.purge purgedRun) = some true := by
    decide +kernel
  obtain ⟨s, hs, hcheck⟩ := Option.map_eq_some_iff.mp hend
  exact ⟨s, hs, purged_results_eq_new hs (purgedRun_sameRun _) (runStaleHarmless_of_check hcheck)⟩

end RainLfu

end RainWebServer.Util
