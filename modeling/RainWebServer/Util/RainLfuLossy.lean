import RainWebServer.Lib.LossyMap
import RainWebServer.Util.RainLfuAllocated
import RainWebServer.Util.RainLfuCounts

/-!
# RainLfu Is a Lossy Map

What a user of `RainLfu` may rely on in every run, also in those in which `minFreq_` is stale, the
counters are off and `kickOut` takes the wrong entry: no call dereferences a null `FreqList *`, a
hit returns the value that was put last, and an entry is lost only to a new key in a full cache.

## Invariant

A `kickOut` that meets the tail sentinel erases the sentinel's key from `nodeMap_` and leaves the
node of that key in its list. So a list may hold nodes that are no longer resident, and `Threaded`
says the rest: every resident is in the list of its frequency, and no node is in another list.
`Led` is why `kickOut` finds a list: that of `minFreq_` exists, and so does that of the sentinel.

## Main results

- `Sturdy.perform` : one operation does not fault, and is one of a lossy map
- `Sturdy.performAll` : a whole run
-/

namespace RainWebServer.Util

open Lib (MapOp LossyStep LossyRun Full keysOf)

namespace RainLfu

variable {Key Value : Type} [DecidableEq Key]

/-! ## §1 Runs and their answers -/

/-- The operation as one on a map. -/
def Op.toMapOp : Op Key Value → MapOp Key Value
  | .put key value => .put key value
  | .get key => .get key
  | .purge => .clear

/-- A sequence of operations, with the results of the `get`s among them. -/
def performAll (s : RainLfu Key Value) :
    List (Op Key Value × Env Key) → Option (RainLfu Key Value × List (Option Value))
  | [] => some (s, [])
  | (op, env) :: rest => do
    let (t, result) ← s.perform env op
    let (u, results) ← performAll t rest
    some (u, result :: results)

/-! ## §2 What an access keeps -/

/-- The entries and the capacity are the same, and no list has gone. -/
structure EntriesKept (s t : RainLfu Key Value) : Prop where
  nodeMap_eq : t.nodeMap_ = s.nodeMap_
  capacity_eq : t.capacity_ = s.capacity_
  value_eq : ∀ p, (t.heap p).value = (s.heap p).value
  lists : s.ListsKept t

namespace EntriesKept

variable {s t u : RainLfu Key Value}

omit [DecidableEq Key] in
theorem refl (s : RainLfu Key Value) : s.EntriesKept s := ⟨rfl, rfl, fun _ => rfl, fun _ h => h⟩

omit [DecidableEq Key] in
theorem trans (h₁ : s.EntriesKept t) (h₂ : t.EntriesKept u) : s.EntriesKept u :=
  ⟨h₂.nodeMap_eq.trans h₁.nodeMap_eq, h₂.capacity_eq.trans h₁.capacity_eq,
    fun p => (h₂.value_eq p).trans (h₁.value_eq p), h₁.lists.trans h₂.lists⟩

omit [DecidableEq Key] in
theorem setMinFreq (s : RainLfu Key Value) (f : Int) : s.EntriesKept (s.setMinFreq f) :=
  ⟨rfl, rfl, fun _ => rfl, fun _ h => h⟩

omit [DecidableEq Key] in
theorem setTotal (s : RainLfu Key Value) (n : Int) : s.EntriesKept (s.setTotal n) :=
  ⟨rfl, rfl, fun _ => rfl, fun _ h => h⟩

omit [DecidableEq Key] in
theorem resident_iff (h : s.EntriesKept t) (p : NodePtr) : t.Resident p ↔ s.Resident p := by
  simp only [Resident, nodePtrs, h.nodeMap_eq]

omit [DecidableEq Key] in
theorem size_eq (h : s.EntriesKept t) : t.size = s.size := by
  simp only [size, h.nodeMap_eq]

theorem valueOf_eq (h : s.EntriesKept t) : t.valueOf = s.valueOf := by
  funext key
  rw [valueOf, valueOf, h.nodeMap_eq]
  cases s.nodeMap_.lookup key with
  | none => rfl
  | some p => exact congrArg some (h.value_eq p)

end EntriesKept

omit [DecidableEq Key] in
/-- A node that is moved keeps its value. -/
theorem Relinked.entriesKept {s t : RainLfu Key Value} {p : NodePtr} {f : Int}
    (h : Relinked s p f t) : s.EntriesKept t := by
  refine ⟨h.nodeMap_eq, h.capacity_eq, fun q => ?_, h.kept⟩
  rcases Nat.decEq q p with hq | rfl
  · rw [h.heap_other hq]
  · rw [h.heap_eq, Function.update_self]

/-! ## §3 The invariant -/

variable [Inhabited Key] [Inhabited Value]

/-- Every resident is in the list of its frequency, and no list holds a node of another one. -/
structure Threaded (s : RainLfu Key Value) : Prop extends s.Allocated where
  /-- A node is entered under its own key. -/
  keyed : ∀ k p, s.nodeMap_.lookup k = some p → (s.heap p).key = k
  placed : ∀ p, s.Resident p → p ∈ s.nodesAt (s.heap p).freq
  own : ∀ f p, p ∈ s.nodesAt f → (s.heap p).freq = f
  nodup : ∀ f, (s.nodesAt f).Nodup
  nonnull : s.NoNullList

/-- The lists that `kickOut` asks for are there. -/
def Led (s : RainLfu Key Value) : Prop := (s.listAt s.minFreq_).isSome ∧ (s.listAt 1).isSome

/-- What holds between two operations. -/
structure Sturdy (s : RainLfu Key Value) : Prop extends s.Threaded where
  led : s.size ≠ 0 → s.Led

theorem sturdy_of_empty {s : RainLfu Key Value} (h : s.Allocated) (hmap : s.nodeMap_ = ∅)
    (hlists : s.freqToFreqList_ = ∅) : s.Sturdy := by
  have hlinked := linked_of_empty hmap hlists
  have hres := not_resident_of_empty hmap
  refine ⟨⟨h, hlinked.keyed, fun p hp => absurd hp (hres p), fun f p hp => ?_, hlinked.nodup,
    hlinked.nonnull⟩, fun hsize => absurd ?_ hsize⟩
  · exact absurd ((hlinked.mem_nodesAt f p).mp hp).1 (hres p)
  · rw [size, hmap]
    rfl

namespace Threaded

variable {s : RainLfu Key Value}

theorem setMinFreq (h : s.Threaded) {f : Int} (hf : 1 ≤ f) : (s.setMinFreq f).Threaded :=
  ⟨h.toAllocated.setMinFreq hf, h.keyed, h.placed, h.own, h.nodup, h.nonnull⟩

theorem setTotal (h : s.Threaded) (n : Int) : (s.setTotal n).Threaded :=
  ⟨h.toAllocated.setTotal n, h.keyed, h.placed, h.own, h.nodup, h.nonnull⟩

theorem setValue (h : s.Threaded) {p : NodePtr} (hp : s.Resident p) (v : Value) :
    (s.setValue p v).Threaded := by
  have hkey : ∀ q, ((s.setValue p v).heap q).key = (s.heap q).key := by
    intro q
    rcases Nat.decEq q p with hq | rfl
    · simp [hq]
    · simp
  refine ⟨h.toAllocated.setValue (h.mapped p hp) v, fun k q hk => ?_, fun q hq => ?_,
    fun f q hq => ?_, h.nodup, h.nonnull⟩
  · rw [hkey]
    exact h.keyed k q hk
  · rw [freq_setValue]
    exact h.placed q hq
  · rw [freq_setValue]
    exact h.own f q hq

/-- `removeFromFreqList` takes a listed node out of all lists. -/
theorem remove (h : s.Threaded) {p : NodePtr} (hp : p ∈ s.nodesAt (s.heap p).freq) :
    ∃ lists, s.removeFromFreqList p = some (s.setLists lists) ∧
      (s.setLists lists).NoNullList ∧ s.ListsKept (s.setLists lists) ∧
      ∀ f, (s.setLists lists).nodesAt f = (s.nodesAt f).erase p := by
  obtain ⟨lists, hrem, hnonnull, hkept, hnodes⟩ := removeFromFreqList_spec h.nonnull hp
  refine ⟨lists, hrem, hnonnull, hkept, fun f => ?_⟩
  rw [hnodes f]
  split
  · rfl
  · rename_i hf
    exact (List.erase_of_not_mem (fun hmem => hf (h.own f p hmem).symm)).symm

/-- A listed node that moves to the list of another frequency. -/
theorem relink (h : s.Threaded) {p : NodePtr} (hp : p ∈ s.nodesAt (s.heap p).freq) {f : Int}
    (hf : 1 ≤ f) :
    ∃ lists t, s.removeFromFreqList p = some (s.setLists lists) ∧
      ((s.setLists lists).setFreq p f).addToFreqList p = some t ∧ Relinked s p f t ∧
      t.Threaded ∧ p ∈ t.nodesAt f := by
  obtain ⟨lists, hrem, hnonnull, hkept, hnodes⟩ := h.remove hp
  obtain ⟨lists', hadd, hnonnull', hkept', hnodes'⟩ :=
    addToFreqList_spec (s := (s.setLists lists).setFreq p f) p hnonnull
  have hrel : Relinked s p f (((s.setLists lists).setFreq p f).setLists lists') := by
    refine ⟨rfl, hkept.trans hkept', fun g => ?_⟩
    have hkeep : ((s.setLists lists).setFreq p f).nodesAt g = (s.nodesAt g).erase p := hnodes g
    rw [hnodes' g, hkeep]
    simp
  have hx := (h.listed _ p hp).1
  have hremoved := (h.toAllocated.removeFromFreqList hrem).setFreq (by exact hx) hf
  have hallocated := hremoved.addToFreqList (by exact hx) hadd
  -- a list holds a node once, so erasing it takes it out for good
  have hnot : ∀ g, p ∉ (s.nodesAt g).erase p := fun g => (h.nodup g).not_mem_erase
  have hnew : p ∈ (((s.setLists lists).setFreq p f).setLists lists').nodesAt f := by
    rw [hrel.nodesAt_eq, if_pos rfl]
    exact List.mem_append_right _ (List.mem_singleton_self p)
  refine ⟨lists, _, hrem, hadd, hrel, ?_, hnew⟩
  constructor
  case toAllocated => exact hallocated
  case keyed =>
    intro k q hq
    rw [hrel.key_eq]
    exact h.keyed k q hq
  case placed =>
    intro q hq
    by_cases hqp : q = p
    · rw [hqp, hrel.freq_self]
      exact hnew
    · rw [hrel.heap_other hqp, hrel.nodesAt_eq]
      have hin := (List.mem_erase_of_ne hqp).mpr (h.placed q ((hrel.resident_iff q).mp hq))
      split
      · exact List.mem_append_left _ hin
      · exact hin
  case own =>
    intro g q hq
    rw [hrel.nodesAt_eq] at hq
    by_cases hqp : q = p
    · rw [hqp, hrel.freq_self]
      split at hq
      · rename_i hg
        exact hg.symm
      · exact absurd (hqp ▸ hq) (hnot g)
    · rw [hrel.heap_other hqp]
      apply h.own g q
      split at hq
      · rcases List.mem_append.mp hq with hq | hq
        · exact List.mem_of_mem_erase hq
        · exact absurd (List.mem_singleton.mp hq) hqp
      · exact List.mem_of_mem_erase hq
  case nodup =>
    intro g
    rw [hrel.nodesAt_eq]
    split
    · exact List.Nodup.append ((h.nodup g).erase p) (List.nodup_singleton p)
        (by simpa using hnot g)
    · exact (h.nodup g).erase p
  case nonnull => exact hnonnull'

/-- The same, read off the two calls that move the node. -/
theorem relinked_of (h : s.Threaded) {p : NodePtr} (hp : p ∈ s.nodesAt (s.heap p).freq) {f : Int}
    (hf : 1 ≤ f) {u t : RainLfu Key Value} (hrem : s.removeFromFreqList p = some u)
    (hadd : (u.setFreq p f).addToFreqList p = some t) : Relinked s p f t ∧ t.Threaded := by
  obtain ⟨lists, v, hrem', hadd', hrel, hv, -⟩ := h.relink hp hf
  rw [hrem, Option.some.injEq] at hrem'
  rw [← hrem', hadd, Option.some.injEq] at hadd'
  exact hadd' ▸ ⟨hrel, hv⟩

/-! ## §4 Accesses -/

/-- Aging a resident moves it. -/
theorem ageNode_relinked (h : s.Threaded) {p : NodePtr} (hp : s.Resident p) :
    ∃ t, s.ageNode p = some t ∧ t.Threaded ∧
      Relinked s p (agedFreq s.maxAverageNum_ (s.heap p).freq) t := by
  obtain ⟨lists, t, hrem, hadd, hrel, ht, -⟩ :=
    h.relink (h.placed p hp) (agedFreq_pos s.maxAverageNum_ (s.heap p).freq)
  refine ⟨t, ?_, ht, hrel⟩
  simp only [RainLfu.ageNode, hrem, Option.bind_eq_bind, Option.bind_some]
  exact hadd

/-- Aging a resident. -/
theorem ageNode (h : s.Threaded) {p : NodePtr} (hp : s.Resident p) :
    ∃ t, s.ageNode p = some t ∧ t.Threaded ∧ s.EntriesKept t ∧ t.minFreq_ = s.minFreq_ := by
  obtain ⟨t, ht, hthreaded, hrel⟩ := h.ageNode_relinked hp
  exact ⟨t, ht, hthreaded, hrel.entriesKept, by rw [hrel.eq_rest]; rfl⟩

/-- The aging loop, in whatever order it visits the residents. -/
theorem foldlM_ageNode {L : List NodePtr} (h : s.Threaded) (hres : ∀ p ∈ L, s.Resident p) :
    ∃ t, L.foldlM RainLfu.ageNode s = some t ∧ t.Threaded ∧ s.EntriesKept t ∧
      t.minFreq_ = s.minFreq_ := by
  induction L generalizing s with
  | nil => exact ⟨s, rfl, h, .refl s, rfl⟩
  | cons p L ih =>
    obtain ⟨u, hu, hthreaded, hkept, hmin⟩ := h.ageNode (hres p (List.mem_cons_self ..))
    obtain ⟨t, ht, hdone, hkept', hmin'⟩ := ih hthreaded
      (fun q hq => (hkept.resident_iff q).mpr (hres q (List.mem_cons_of_mem _ hq)))
    refine ⟨t, ?_, hdone, hkept.trans hkept', hmin'.trans hmin⟩
    rw [List.foldlM_cons, hu]
    exact ht

omit [DecidableEq Key] [Inhabited Key] [Inhabited Value] in
/-- `updateMinFreq` finds a list, or stores 1. -/
theorem updateMinFreq_led (h : (s.listAt 1).isSome) : s.updateMinFreq.Led := by
  refine ⟨?_, h⟩
  obtain ⟨-, -, hatt⟩ := leastListed_spec s.freqToFreqList_.entries int8Max
  show (s.listAt (if leastListed int8Max s.freqToFreqList_.entries = int8Max then 1
    else leastListed int8Max s.freqToFreqList_.entries)).isSome
  split
  · exact h
  · rename_i hcap
    obtain ⟨l, hmem, -⟩ := hatt.resolve_left hcap
    rw [(mem_entries_iff_listAt s _ l).mp hmem]
    rfl

/-- `addFreqNum` never faults. It keeps the lists that `kickOut` asks for, and an aging pass finds
    them again when `minFreq_` was stale. -/
theorem addFreqNum (h : s.Threaded) (hone : (s.listAt 1).isSome) (env : Env Key) :
    ∃ t, s.addFreqNum env = some t ∧ t.Threaded ∧ s.EntriesKept t ∧ (s.Led → t.Led) := by
  have htotal := h.setTotal (s.curTotalNum_ + 1)
  have hcounted := EntriesKept.setTotal s (s.curTotalNum_ + 1)
  unfold RainLfu.addFreqNum
  simp only
  split
  · unfold handleOverMaxAverageNum
    split
    · exact ⟨_, rfl, htotal, hcounted, fun hled => hled⟩
    · obtain ⟨u, hu, hthreaded, hkept, -⟩ := htotal.foldlM_ageNode
        (fun p hp => (env.order_perm _).mem_iff.mp hp)
      have hone' : (u.listAt 1).isSome := (hcounted.trans hkept).lists 1 hone
      refine ⟨u.updateMinFreq, by rw [hu]; rfl, ?_, (hcounted.trans hkept).trans (.setMinFreq u _),
        fun _ => updateMinFreq_led hone'⟩
      exact hthreaded.setMinFreq hthreaded.toAllocated.updateMinFreq.minFreq_pos
  · exact ⟨_, rfl, htotal, hcounted, fun hled => hled⟩

/-- A hit hands out the value of its node. -/
theorem getInternal (h : s.Threaded) (hled : s.Led) {p : NodePtr} (hp : s.Resident p)
    (env : Env Key) :
    ∃ t, s.getInternal env p = some ((s.heap p).value, t) ∧ t.Threaded ∧ s.EntriesKept t ∧
      t.Led := by
  obtain ⟨lists, s₁, hrem, hadd, hrel, h₁, hin⟩ :=
    h.relink (h.placed p hp) (Int.le_add_one (h.freq_pos p (h.mapped p hp)))
  have hmin : s₁.minFreq_ = s.minFreq_ := by rw [hrel.eq_rest]; rfl
  have hled₁ : s₁.Led := ⟨hmin ▸ hrel.kept _ hled.1, hrel.kept _ hled.2⟩
  have hprev : (s₁.heap p).freq - 1 = (s.heap p).freq := by
    rw [hrel.freq_self]
    exact Int.add_sub_cancel _ _
  obtain ⟨l, hl, -⟩ := listAt_of_mem_nodesAt hin
  -- the list that the node has left is still there
  obtain ⟨moved, htest⟩ : ∃ moved, s₁.leftMinList p = some moved := by
    obtain ⟨l₀, hl₀, -⟩ := listAt_of_mem_nodesAt (h.placed p hp)
    obtain ⟨l₁, hl₁⟩ := Option.isSome_iff_exists.mp (hrel.kept _ (by rw [hl₀]; rfl))
    unfold leftMinList
    rw [hprev, hl₁]
    split
    · exact ⟨_, rfl⟩
    · exact ⟨_, rfl⟩
  obtain ⟨f, hset, hf, hledf⟩ : ∃ f, (if moved then s₁.setMinFreq (s₁.minFreq_ + 1) else s₁) =
      s₁.setMinFreq f ∧ 1 ≤ f ∧ (s₁.setMinFreq f).Led := by
    cases moved with
    | false => exact ⟨s₁.minFreq_, rfl, h₁.minFreq_pos, hled₁⟩
    | true =>
      refine ⟨s₁.minFreq_ + 1, rfl, Int.le_add_one h₁.minFreq_pos, ?_, hled₁.2⟩
      -- `minFreq_` moves on to the list that the node has joined
      unfold leftMinList at htest
      split at htest
      · rename_i hleft
        show (s₁.listAt (s₁.minFreq_ + 1)).isSome
        rw [← hleft, hprev, hl]
        rfl
      · cases htest
  obtain ⟨t, ht, hthreaded, hkept, hkeep⟩ := (h₁.setMinFreq hf).addFreqNum hledf.2 env
  exact ⟨t, getInternal_eq hrem hadd htest hset ht, hthreaded,
    (hrel.entriesKept.trans (.setMinFreq s₁ f)).trans hkept, hkeep hledf⟩

/-! ## §5 Room for a new key -/

/-- Erasing a key leaves the node of every other resident in its list. -/
theorem eraseKey (h : s.Threaded) (key : Key) : (s.eraseKey key).Threaded := by
  have hlookup : ∀ k p, (s.eraseKey key).nodeMap_.lookup k = some p →
      s.nodeMap_.lookup k = some p := by
    intro k p hk
    rw [eraseKey_nodeMap_] at hk
    by_cases hkey : k = key
    · rw [hkey, AList.lookup_erase] at hk
      cases hk
    · rwa [AList.lookup_erase_ne hkey] at hk
  refine ⟨h.toAllocated.eraseKey key, fun k p hk => h.keyed k p (hlookup k p hk), fun p hp => ?_,
    h.own, h.nodup, h.nonnull⟩
  obtain ⟨k, hk⟩ := (RainLfu.resident_iff _ p).mp hp
  exact h.placed p ((RainLfu.resident_iff s p).mpr ⟨k, hlookup k p hk⟩)

/-- The first node of a list goes, and with it the entry of its key. -/
theorem evict (h : s.Threaded) {p : NodePtr} (hp : p ∈ s.nodesAt (s.heap p).freq) :
    ∃ lists, s.removeFromFreqList p = some (s.setLists lists) ∧
      ((s.setLists lists).eraseKey (s.heap p).key).Threaded := by
  obtain ⟨lists, hrem, hnonnull, -, hnodes⟩ := h.remove hp
  refine ⟨lists, hrem, ?_⟩
  constructor
  case toAllocated => exact (h.toAllocated.removeFromFreqList hrem).eraseKey _
  case keyed => exact (h.eraseKey (s.heap p).key).keyed
  case placed =>
    intro q hq
    have hin := (h.eraseKey (s.heap p).key).placed q hq
    -- the evicted node itself is not resident any more: its key has gone
    have hqp : q ≠ p := by
      rintro rfl
      obtain ⟨k, hk⟩ := (RainLfu.resident_iff _ q).mp hq
      have hkey : (s.heap q).key = k := (h.eraseKey (s.heap q).key).keyed k q hk
      have hgone : ((s.setLists lists).eraseKey (s.heap q).key).nodeMap_.lookup k = none := by
        rw [eraseKey_nodeMap_, hkey]
        exact AList.lookup_erase _ _
      rw [hgone] at hk
      cases hk
    show q ∈ (s.setLists lists).nodesAt (s.heap q).freq
    rw [hnodes]
    exact (List.mem_erase_of_ne hqp).mpr hin
  case own =>
    intro f q hq
    change q ∈ (s.setLists lists).nodesAt f at hq
    rw [hnodes] at hq
    exact h.own f q (List.mem_of_mem_erase hq)
  case nodup =>
    intro f
    show ((s.setLists lists).nodesAt f).Nodup
    rw [hnodes]
    exact (h.nodup f).erase p
  case nonnull => exact hnonnull

/-- `kickOut` erases one key, whether it meets a node or the sentinel. -/
theorem kickOut (h : s.Threaded) (hled : s.Led) (env : Env Key) :
    ∃ t lost, s.kickOut env = some t ∧ t.Threaded ∧ t.capacity_ = s.capacity_ ∧
      t.nodeMap_ = s.nodeMap_.erase lost ∧ t.heap = s.heap := by
  obtain ⟨l, hl⟩ := Option.isSome_iff_exists.mp hled.1
  cases hfirst : l.getFirstNode with
  | some p =>
    have hnodes : s.nodesAt s.minFreq_ = l.nodes := by simp [nodesAt, hl]
    have hp : p ∈ s.nodesAt s.minFreq_ := by
      rw [hnodes]
      exact List.mem_of_head? hfirst
    obtain ⟨lists, hrem, hevicted⟩ := h.evict (h.own _ p hp ▸ hp)
    refine ⟨((s.setLists lists).eraseKey (s.heap p).key).decreaseFreqNum (s.heap p).freq,
      (s.heap p).key, ?_, hevicted.setTotal _, rfl, rfl, rfl⟩
    simp only [RainLfu.kickOut, hl, Option.bind_eq_bind, Option.bind_some, hfirst, hrem,
      setLists_heap]
  | none =>
    obtain ⟨l₁, hl₁⟩ := Option.isSome_iff_exists.mp hled.2
    refine ⟨(s.eraseKey env.sentinelKey).decreaseFreqNum 1, env.sentinelKey, ?_,
      (h.eraseKey _).setTotal _, rfl, rfl, rfl⟩
    simp only [RainLfu.kickOut, hl, Option.bind_eq_bind, Option.bind_some, hfirst, hl₁]

/-- The node of a new key joins the list of frequency 1. -/
theorem makeNode (h : s.Threaded) {key : Key} (value : Value)
    (hkey : s.nodeMap_.lookup key = none) :
    ∃ lists, (s.makeNode key value).addToFreqList s.fresh =
        some ((s.makeNode key value).setLists lists) ∧
      ((s.makeNode key value).setLists lists).Threaded ∧
      (((s.makeNode key value).setLists lists).listAt 1).isSome := by
  obtain ⟨lists, hadd, hnonnull, -, hnodes⟩ :=
    addToFreqList_spec (s := s.makeNode key value) s.fresh h.nonnull
  have hallocated := (h.toAllocated.makeNode key value).addToFreqList (Nat.lt_succ_self _) hadd
  have hfreq : ((s.makeNode key value).heap s.fresh).freq = 1 := by simp
  have hnodes' : ∀ f, ((s.makeNode key value).setLists lists).nodesAt f =
      if f = 1 then s.nodesAt f ++ [s.fresh] else s.nodesAt f := by
    rw [hfreq] at hnodes
    exact hnodes
  -- the address of a new node is no address in use
  have hheap : ∀ p, p ≠ s.fresh → ((s.makeNode key value).setLists lists).heap p = s.heap p := by
    intro p hp
    simp [hp]
  have hunlisted : ∀ f, s.fresh ∉ s.nodesAt f := fun f hmem =>
    Nat.lt_irrefl _ (h.listed f s.fresh hmem).1
  have hnew : s.fresh ∈ ((s.makeNode key value).setLists lists).nodesAt 1 := by
    rw [hnodes', if_pos rfl]
    exact List.mem_append_right _ (List.mem_singleton_self _)
  obtain ⟨l, hl, -⟩ := listAt_of_mem_nodesAt hnew
  refine ⟨lists, hadd, ?_, by rw [hl]; rfl⟩
  constructor
  case toAllocated => exact hallocated
  case keyed =>
    intro k p hk
    by_cases hkk : k = key
    · subst hkk
      have hp : p = s.fresh := by simpa using hk.symm
      subst hp
      simp
    · have hlook : s.nodeMap_.lookup k = some p := by
        simpa [AList.lookup_insert_ne hkk] using hk
      have hp := h.mapped p ((RainLfu.resident_iff s p).mpr ⟨k, hlook⟩)
      rw [hheap p (Nat.ne_of_lt hp)]
      exact h.keyed k p hlook
  case placed =>
    intro p hp
    rcases (resident_makeNode value hkey p).mp hp with rfl | hold
    · simpa using hnew
    · rw [hheap p (Nat.ne_of_lt (h.mapped p hold)), hnodes']
      split
      · exact List.mem_append_left _ (h.placed p hold)
      · exact h.placed p hold
  case own =>
    intro f p hp
    rw [hnodes'] at hp
    by_cases hpf : p = s.fresh
    · subst hpf
      split at hp
      · rename_i hf
        simp [hf]
      · exact absurd hp (hunlisted f)
    · rw [hheap p hpf]
      apply h.own f p
      split at hp
      · rcases List.mem_append.mp hp with hp | hp
        · exact hp
        · exact absurd (List.mem_singleton.mp hp) hpf
      · exact hp
  case nodup =>
    intro f
    rw [hnodes']
    split
    · exact List.Nodup.append (h.nodup f) (List.nodup_singleton _) (by simpa using hunlisted f)
    · exact h.nodup f
  case nonnull => exact hnonnull

/-! ## §6 Entries -/

/-- The map after a new node has been entered. -/
theorem valueOf_makeNode (h : s.Threaded) (key : Key) (value : Value) :
    (s.makeNode key value).valueOf = Function.update s.valueOf key (some value) := by
  funext k
  by_cases hk : k = key
  · rw [hk, Function.update_self, valueOf, makeNode_nodeMap_, AList.lookup_insert]
    simp
  · rw [Function.update_of_ne hk, valueOf, makeNode_nodeMap_, AList.lookup_insert_ne hk, valueOf]
    cases hlook : s.nodeMap_.lookup k with
    | none => rfl
    | some p =>
      have hold := h.mapped p ((RainLfu.resident_iff s p).mpr ⟨k, hlook⟩)
      simp [Nat.ne_of_lt hold]

/-- The map after the node of a key has been overwritten. No other key has that node. -/
theorem valueOf_setValue (h : s.Threaded) {key : Key} {p : NodePtr}
    (hp : s.nodeMap_.lookup key = some p) (value : Value) :
    (s.setValue p value).valueOf = Function.update s.valueOf key (some value) := by
  funext k
  by_cases hk : k = key
  · rw [hk, Function.update_self, valueOf, setValue_nodeMap_, hp]
    simp
  · rw [Function.update_of_ne hk, valueOf, setValue_nodeMap_, valueOf]
    cases hlook : s.nodeMap_.lookup k with
    | none => rfl
    | some q =>
      have hne : q ≠ p := by
        intro hqp
        exact hk ((h.keyed k q hlook).symm.trans (hqp ▸ h.keyed key p hp))
      simp [hne]

end Threaded

omit [Inhabited Key] [Inhabited Value] in
/-- The map after the entry of a key has been erased. -/
theorem valueOf_erase {s t : RainLfu Key Value} {lost : Key}
    (hmap : t.nodeMap_ = s.nodeMap_.erase lost) (hheap : t.heap = s.heap) :
    t.valueOf = Function.update s.valueOf lost none := by
  funext k
  by_cases hk : k = lost
  · rw [hk, Function.update_self, valueOf, hmap, AList.lookup_erase]
    rfl
  · rw [Function.update_of_ne hk, valueOf, hmap, AList.lookup_erase_ne hk, hheap, valueOf]

omit [Inhabited Key] [Inhabited Value] in
theorem valueOf_eq_none_iff {s : RainLfu Key Value} {key : Key} :
    s.valueOf key = none ↔ s.nodeMap_.lookup key = none := Option.map_eq_none_iff

omit [Inhabited Key] [Inhabited Value] in
/-- `nodeMap_.size()` counts the keys of the map. -/
theorem full_of_size {s : RainLfu Key Value} (h : (s.size : Int) = s.capacity_) :
    Full s.capacity_ s.valueOf := by
  refine ⟨s.size, h, ?_⟩
  have hkeys : keysOf s.valueOf = (s.nodeMap_.keys.toFinset : Set Key) := by
    ext key
    rw [keysOf, Set.mem_ofPred_eq, Finset.mem_coe, List.mem_toFinset, Ne, valueOf_eq_none_iff,
      AList.lookup_eq_none, not_not, AList.mem_keys]
  rw [hkeys, Set.encard_coe_eq_coe_finsetCard, List.toFinset_card_of_nodup s.nodeMap_.keys_nodup]
  simp [AList.keys, List.keys, size]

/-! ## §7 Operations and runs -/

namespace Sturdy

variable {s : RainLfu Key Value}

/-- A full cache has the lists that `kickOut` asks for. -/
theorem led_of_full (h : s.Sturdy) (hcap : s.capacity_ ≠ 0)
    (hfull : (s.size : Int) = s.capacity_) : s.Led := by
  apply h.led
  intro hzero
  rw [hzero] at hfull
  exact hcap hfull.symm

/-- A new key enters a cache that has room for it. -/
theorem insertNew (h : s.Threaded) {key : Key} (value : Value)
    (hkey : s.nodeMap_.lookup key = none) (env : Env Key) :
    ∃ t, s.insertNew env key value = some t ∧ t.Sturdy ∧ t.capacity_ = s.capacity_ ∧
      t.valueOf = Function.update s.valueOf key (some value) := by
  obtain ⟨lists, hadd, hthreaded, hone⟩ := h.makeNode value hkey
  obtain ⟨t, ht, hdone, hkept, -⟩ := hthreaded.addFreqNum hone env
  refine ⟨t.setMinFreq (min t.minFreq_ 1), ?_, ⟨hdone.setMinFreq ?_, fun _ => ?_⟩,
    hkept.capacity_eq, ?_⟩
  · simp only [RainLfu.insertNew, hadd, Option.bind_eq_bind, Option.bind_some, ht]
  · exact le_min hdone.minFreq_pos (le_refl 1)
  · -- `minFreq_` was positive, so it is 1 now, however stale it was
    have hmin : min t.minFreq_ 1 = 1 := min_eq_right hdone.minFreq_pos
    rw [hmin]
    exact ⟨hkept.lists 1 hone, hkept.lists 1 hone⟩
  · exact (hkept.trans (.setMinFreq t _)).valueOf_eq.trans (h.valueOf_makeNode key value)

theorem put_new (h : s.Sturdy) {key : Key} (value : Value) (hcap : s.capacity_ ≠ 0)
    (hkey : s.nodeMap_.lookup key = none) (env : Env Key) :
    ∃ t, s.putInternal env key value = some t ∧ t.Sturdy ∧ t.capacity_ = s.capacity_ ∧
      LossyStep s.capacity_ s.valueOf (.put key value) none t.valueOf := by
  rw [putInternal_eq, makeRoom]
  split
  · rename_i hfull
    obtain ⟨u, lost, hu, hthreaded, hucap, humap, huheap⟩ :=
      h.toThreaded.kickOut (h.led_of_full hcap hfull) env
    have hukey : u.nodeMap_.lookup key = none := humap ▸ lookup_erase_eq_none hkey lost
    obtain ⟨t, ht, hdone, htcap, hvalue⟩ := insertNew hthreaded value hukey env
    refine ⟨t, by rw [hu]; exact ht, hdone, htcap.trans hucap, ?_⟩
    rw [hvalue, valueOf_erase humap huheap]
    exact .evict key lost value hcap (valueOf_eq_none_iff.mpr hkey) (full_of_size hfull)
  · obtain ⟨t, ht, hdone, htcap, hvalue⟩ := insertNew h.toThreaded value hkey env
    refine ⟨t, ht, hdone, htcap, ?_⟩
    rw [hvalue]
    exact .put key value hcap

/-- A hit, by `get` or by `put`, keeps everything in place. -/
theorem hit (h : s.Sturdy) {key : Key} {p : NodePtr} (hp : s.nodeMap_.lookup key = some p)
    (env : Env Key) :
    ∃ t, s.getInternal env p = some ((s.heap p).value, t) ∧ t.Sturdy ∧
      t.capacity_ = s.capacity_ ∧ t.valueOf = s.valueOf := by
  have hres : s.Resident p := (RainLfu.resident_iff s p).mpr ⟨key, hp⟩
  have hsize : s.size ≠ 0 := by
    rw [size_eq_length_nodePtrs]
    exact Nat.ne_of_gt (List.length_pos_of_mem hres)
  obtain ⟨t, ht, hthreaded, hkept, hled⟩ := h.toThreaded.getInternal (h.led hsize) hres env
  exact ⟨t, ht, ⟨hthreaded, fun _ => hled⟩, hkept.capacity_eq, hkept.valueOf_eq⟩

/-- **One operation** does not fault, and is one of a lossy map. -/
theorem perform (h : s.Sturdy) (env : Env Key) (op : Op Key Value) :
    ∃ t result, s.perform env op = some (t, result) ∧ t.Sturdy ∧ t.capacity_ = s.capacity_ ∧
      LossyStep s.capacity_ s.valueOf op.toMapOp result t.valueOf := by
  cases op with
  | put key value =>
    rw [RainLfu.perform, RainLfu.put]
    by_cases hcap : s.capacity_ = 0
    · rw [if_pos hcap]
      exact ⟨s, none, rfl, h, rfl, .ignore key value hcap⟩
    rw [if_neg hcap]
    cases hlook : s.nodeMap_.lookup key with
    | none =>
      obtain ⟨t, ht, hdone, htcap, hstep⟩ := h.put_new value hcap hlook env
      exact ⟨t, none, by simp only [ht, Option.map_some], hdone, htcap, hstep⟩
    | some p =>
      -- the value is overwritten first, and then the put counts as an access
      have hres : s.Resident p := (RainLfu.resident_iff s p).mpr ⟨key, hlook⟩
      have hset : (s.setValue p value).Sturdy := ⟨h.toThreaded.setValue hres value, h.led⟩
      have hlook' : (s.setValue p value).nodeMap_.lookup key = some p := hlook
      obtain ⟨t, ht, hdone, htcap, hvalue⟩ := hset.hit hlook' env
      refine ⟨t, none, by simp only [ht, Option.map_some], hdone, htcap, ?_⟩
      rw [hvalue, h.toThreaded.valueOf_setValue hlook]
      exact .put key value hcap
  | get key =>
    rw [RainLfu.perform, RainLfu.get]
    cases hlook : s.nodeMap_.lookup key with
    | none =>
      refine ⟨s, none, rfl, h, rfl, ?_⟩
      have hmiss : LossyStep s.capacity_ s.valueOf (.get key) (s.valueOf key) s.valueOf := .get key
      rwa [valueOf_eq_none_iff.mpr hlook] at hmiss
    | some p =>
      obtain ⟨t, ht, hdone, htcap, hvalue⟩ := h.hit hlook env
      refine ⟨t, some (s.heap p).value, by simp only [ht, Option.map_some], hdone, htcap, ?_⟩
      have hhit : LossyStep s.capacity_ s.valueOf (.get key) (s.valueOf key) s.valueOf := .get key
      rw [show s.valueOf key = some (s.heap p).value by rw [valueOf, hlook]; rfl] at hhit
      rwa [hvalue]
  | purge =>
    have hpurge : s.apply env .purge = some s.purge := rfl
    exact ⟨s.purge, none, rfl, sturdy_of_empty (h.toAllocated.apply hpurge) rfl rfl, rfl, .clear⟩

/-- **A whole run.** -/
theorem performAll (h : s.Sturdy) (ops : List (Op Key Value × Env Key)) :
    ∃ t results, s.performAll ops = some (t, results) ∧
      LossyRun s.capacity_ s.valueOf (ops.map (fun op => op.1.toMapOp)) results t.valueOf := by
  induction ops generalizing s with
  | nil => exact ⟨s, [], rfl, .nil _⟩
  | cons head rest ih =>
    obtain ⟨op, env⟩ := head
    obtain ⟨t, result, ht, hsturdy, hcap, hstep⟩ := h.perform env op
    obtain ⟨u, results, hu, hrun⟩ := ih hsturdy
    rw [hcap] at hrun
    refine ⟨u, result :: results, ?_, .cons hstep hrun⟩
    simp only [RainLfu.performAll, ht, hu, Option.bind_eq_bind, Option.bind_some]

end Sturdy

theorem sturdy_new (capacity maxAverageNum : Int) :
    (new capacity maxAverageNum : RainLfu Key Value).Sturdy :=
  sturdy_of_empty (allocated_new capacity maxAverageNum) rfl rfl

end RainLfu

end RainWebServer.Util
