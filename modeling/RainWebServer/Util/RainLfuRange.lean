import Mathlib.Algebra.Order.BigOperators.Group.Finset
import RainWebServer.Util.RainLfuHash
import RainWebServer.Util.RainLfuLossy

/-!
# RainLfu: No Counter Overflows

The counters of `RainLfu` are `int`s. They are integers in the model, and this module shows that
this makes no difference in a run with fewer than `2 ^ 31` accesses, if `maxAverageNum_` is not
negative: `minFreq_`, `curTotalNum_`, `curAverageNum_` and every frequency stay within the range of
`int`.

A frequency is at most the number of accesses so far, and so is the total. What bounds the total
from below is the sum of the frequencies of the nodes that are in a list (`listedSum`). A hit and an
insertion raise both, an eviction lowers both, an aging pass and `purge` lower the sum alone. Only a
`kickOut` that meets the tail sentinel takes 1 off the total and leaves the sum, so the total falls
behind the sum by at most the number of accesses.

## Main results

- `performAll_ints` : the counters are `int`s after every part of a run
- `performAll_lossy` : every run is a run of a lossy map
- `performAll_exact` : while the entries fit, the cache answers as an exact map does
-/

namespace RainWebServer.Util

open Lib (MapOp LossyRun Agrees Fits exactAll exactAnswers)
open RainLfuHash (accesses)

/-! ## §1 The range of `int` -/

/-- The integer is an `int`. -/
def IsInt (x : Int) : Prop := -2 ^ 31 ≤ x ∧ x < 2 ^ 31

/-- The quotient of an `int` and a `size_t` is an `int`. -/
theorem divSize_range (total : Int) (size : Nat) :
    -2 ^ 31 ≤ divSize total size ∧ (total < 2 ^ 31 → divSize total size < 2 ^ 31) := by
  by_cases hnonneg : 0 ≤ total
  · rw [divSize_of_nonneg hnonneg]
    have hquot : 0 ≤ total / (size : Int) := Int.ediv_nonneg hnonneg (Int.natCast_nonneg size)
    have hle : total / (size : Int) ≤ total := Int.ediv_le_self _ hnonneg
    omega
  · -- the quotient is that of a large `size_t`, and its low half is kept
    rw [divSize, if_neg hnonneg]
    have hlow := Int.le_bmod (x := (2 ^ 64 + total) / size) (m := 2 ^ 32) (by decide)
    have hhigh := Int.bmod_lt (x := (2 ^ 64 + total) / size) (m := 2 ^ 32) (by decide)
    omega

namespace RainLfu

variable {Key Value : Type}

/-- The counters of the cache are `int`s. -/
structure Ints (s : RainLfu Key Value) : Prop where
  minFreq : IsInt s.minFreq_
  average : IsInt s.curAverageNum_
  total : IsInt s.curTotalNum_
  freq : ∀ p, p < s.fresh → IsInt (s.heap p).freq

/-! ## §2 The nodes in the lists -/

/-- The frequency of a node that is in its list, and 0 for any other. -/
def listedFreq (s : RainLfu Key Value) (p : NodePtr) : Int :=
  if p ∈ s.nodesAt (s.heap p).freq then (s.heap p).freq else 0

/-- The sum of the frequencies of the nodes that are in a list, residents or not. -/
def listedSum (s : RainLfu Key Value) : Int := ∑ p ∈ Finset.range s.fresh, s.listedFreq p

theorem listedFreq_of_mem {s : RainLfu Key Value} {p : NodePtr}
    (hp : p ∈ s.nodesAt (s.heap p).freq) : s.listedFreq p = (s.heap p).freq := if_pos hp

theorem listedFreq_of_not_mem {s : RainLfu Key Value} {p : NodePtr}
    (hp : p ∉ s.nodesAt (s.heap p).freq) : s.listedFreq p = 0 := if_neg hp

theorem listedFreq_congr {s t : RainLfu Key Value} {p : NodePtr}
    (hfreq : (t.heap p).freq = (s.heap p).freq)
    (hmem : p ∈ t.nodesAt (s.heap p).freq ↔ p ∈ s.nodesAt (s.heap p).freq) :
    t.listedFreq p = s.listedFreq p := by
  rw [listedFreq, listedFreq, hfreq]
  exact if_congr hmem rfl rfl

/-- The sum of frequencies of nodes that have been made is not negative. -/
theorem listedSum_nonneg {s : RainLfu Key Value} (hpos : ∀ p, p < s.fresh → 1 ≤ (s.heap p).freq) :
    0 ≤ s.listedSum := by
  refine Finset.sum_nonneg fun p hp => ?_
  have hfreq := hpos p (Finset.mem_range.mp hp)
  unfold listedFreq
  split
  · omega
  · exact le_refl 0

/-- Only one node has changed. -/
theorem listedSum_add {s t : RainLfu Key Value} {p : NodePtr} (hp : p < s.fresh)
    (hfresh : t.fresh = s.fresh) (hother : ∀ q, q ≠ p → t.listedFreq q = s.listedFreq q) :
    t.listedSum + s.listedFreq p = s.listedSum + t.listedFreq p := by
  have hmem : p ∈ Finset.range s.fresh := Finset.mem_range.mpr hp
  have hrest : ∑ q ∈ (Finset.range s.fresh).erase p, t.listedFreq q =
      ∑ q ∈ (Finset.range s.fresh).erase p, s.listedFreq q :=
    Finset.sum_congr rfl fun q hq => hother q (Finset.ne_of_mem_erase hq)
  have hs := Finset.add_sum_erase (Finset.range s.fresh) (fun q => s.listedFreq q) hmem
  have ht := Finset.add_sum_erase (Finset.range s.fresh) (fun q => t.listedFreq q) hmem
  rw [listedSum, listedSum, hfresh, ← hs, ← ht, hrest]
  omega

/-- No node has changed. -/
theorem listedSum_congr {s t : RainLfu Key Value} (hfresh : t.fresh = s.fresh)
    (hsame : ∀ q, t.listedFreq q = s.listedFreq q) : t.listedSum = s.listedSum := by
  rw [listedSum, listedSum, hfresh]
  exact Finset.sum_congr rfl fun q _ => hsame q

section Keyed

variable [DecidableEq Key] [Inhabited Key] [Inhabited Value] {s t : RainLfu Key Value}

/-- A node that is moved changes the sum by what its frequency changes. -/
theorem Relinked.listedSum_add {p : NodePtr} {f : Int} (hrel : Relinked s p f t)
    (hs : s.Threaded) (hp : p ∈ s.nodesAt (s.heap p).freq) :
    t.listedSum + (s.heap p).freq = s.listedSum + f := by
  have hfresh : t.fresh = s.fresh := by
    rw [hrel.eq_rest]
    rfl
  have hin : p ∈ t.nodesAt (t.heap p).freq := by
    rw [hrel.freq_self, hrel.nodesAt_eq, if_pos rfl]
    exact List.mem_append_right _ (List.mem_singleton_self p)
  have hother : ∀ q, q ≠ p → t.listedFreq q = s.listedFreq q := by
    intro q hq
    apply listedFreq_congr (by rw [hrel.heap_other hq])
    rw [hrel.nodesAt_eq]
    split
    · rw [List.mem_append, List.mem_singleton, List.mem_erase_of_ne hq]
      exact or_iff_left hq
    · exact List.mem_erase_of_ne hq
  have hsum := RainLfu.listedSum_add (hs.listed _ p hp).1 hfresh hother
  rwa [listedFreq_of_mem hp, listedFreq_of_mem hin, hrel.freq_self] at hsum

/-- A node that is taken out of its list takes its frequency out of the sum. -/
theorem listedSum_remove (hs : s.Threaded) {p : NodePtr} (hp : p ∈ s.nodesAt (s.heap p).freq)
    {lists : AList (fun _ : Int => Option FreqList)}
    (hnodes : ∀ f, (s.setLists lists).nodesAt f = (s.nodesAt f).erase p) :
    (s.setLists lists).listedSum + (s.heap p).freq = s.listedSum := by
  have hgone : (s.setLists lists).listedFreq p = 0 := by
    apply listedFreq_of_not_mem
    rw [hnodes]
    exact (hs.nodup _).not_mem_erase
  have hother : ∀ q, q ≠ p → (s.setLists lists).listedFreq q = s.listedFreq q := by
    intro q hq
    refine listedFreq_congr (t := s.setLists lists) rfl ?_
    rw [hnodes]
    exact List.mem_erase_of_ne hq
  have hsum := listedSum_add (t := s.setLists lists) (hs.listed _ p hp).1 rfl hother
  rwa [hgone, listedFreq_of_mem hp, add_zero] at hsum

omit [Inhabited Key] [Inhabited Value] in
/-- A new node adds its frequency to the sum. -/
theorem listedSum_makeNode {key : Key} {value : Value}
    {lists : AList (fun _ : Int => Option FreqList)}
    (hnodes : ∀ f, ((s.makeNode key value).setLists lists).nodesAt f =
      if f = 1 then s.nodesAt f ++ [s.fresh] else s.nodesAt f) :
    ((s.makeNode key value).setLists lists).listedSum = s.listedSum + 1 := by
  have hself : (((s.makeNode key value).setLists lists).heap s.fresh).freq = 1 := by simp
  have hnew : ((s.makeNode key value).setLists lists).listedFreq s.fresh = 1 := by
    rw [listedFreq_of_mem, hself]
    rw [hself, hnodes, if_pos rfl]
    exact List.mem_append_right _ (List.mem_singleton_self _)
  have hold : ∀ p ∈ Finset.range s.fresh,
      ((s.makeNode key value).setLists lists).listedFreq p = s.listedFreq p := by
    intro p hp
    have hne : p ≠ s.fresh := Nat.ne_of_lt (Finset.mem_range.mp hp)
    apply listedFreq_congr (by simp [hne])
    rw [hnodes]
    split
    · rw [List.mem_append, List.mem_singleton]
      exact or_iff_left hne
    · rfl
  have hfresh : ((s.makeNode key value).setLists lists).fresh = s.fresh + 1 := rfl
  rw [listedSum, hfresh, Finset.sum_range_succ, hnew, Finset.sum_congr rfl hold]
  rfl

end Keyed

/-! ## §3 The invariant -/

/-- What bounds the counters: no frequency and no total is above `n`, and the total is at most `d`
    below the sum of the listed frequencies. -/
structure Within (s : RainLfu Key Value) (n d : Int) : Prop where
  max_nonneg : 0 ≤ s.maxAverageNum_
  freq_le : ∀ p, (s.heap p).freq ≤ n
  minFreq_le : s.minFreq_ ≤ max int8Max n
  total_le : s.curTotalNum_ ≤ n
  listedSum_le : s.listedSum ≤ s.curTotalNum_ + d
  average_ge : -2 ^ 31 ≤ s.curAverageNum_
  average_lt : n < 2 ^ 31 → s.curAverageNum_ < 2 ^ 31

namespace Within

variable {s t : RainLfu Key Value} {n n' d d' : Int}

theorem mono (h : s.Within n d) (hn : n ≤ n') (hd : d ≤ d') : s.Within n' d' where
  max_nonneg := h.max_nonneg
  freq_le p := (h.freq_le p).trans hn
  minFreq_le := h.minFreq_le.trans (max_le_max_left _ hn)
  total_le := h.total_le.trans hn
  listedSum_le := h.listedSum_le.trans (Int.add_le_add_left hd _)
  average_ge := h.average_ge
  average_lt hlt := h.average_lt (Int.lt_of_le_of_lt hn hlt)

theorem setMinFreq (h : s.Within n d) {f : Int} (hf : f ≤ max int8Max n) :
    (s.setMinFreq f).Within n d :=
  ⟨h.max_nonneg, h.freq_le, hf, h.total_le, h.listedSum_le, h.average_ge, h.average_lt⟩

theorem setTotal (h : s.Within n d) {total : Int} (hle : total ≤ n)
    (hsum : s.listedSum ≤ total + d') : (s.setTotal total).Within n d' := by
  obtain ⟨hlow, hhigh⟩ : -2 ^ 31 ≤ s.averageOf total ∧
      (total < 2 ^ 31 → s.averageOf total < 2 ^ 31) := by
    unfold averageOf
    split
    · omega
    · exact divSize_range _ _
  exact ⟨h.max_nonneg, h.freq_le, h.minFreq_le, hle, hsum, hlow,
    fun hlt => hhigh (Int.lt_of_le_of_lt hle hlt)⟩

theorem setValue (h : s.Within n d) (p : NodePtr) (v : Value) :
    (s.setValue p v).Within n d := by
  have hfreq : ∀ q, ((s.setValue p v).heap q).freq = (s.heap q).freq :=
    fun q => freq_setValue s p q v
  have hsum : (s.setValue p v).listedSum = s.listedSum :=
    listedSum_congr rfl fun q => listedFreq_congr (hfreq q) Iff.rfl
  exact ⟨h.max_nonneg, fun q => hfreq q ▸ h.freq_le q, h.minFreq_le, h.total_le,
    hsum ▸ h.listedSum_le, h.average_ge, h.average_lt⟩

variable [DecidableEq Key] [Inhabited Key] [Inhabited Value]

/-- A node moves, and the bounds move with its frequency. -/
theorem relinked (h : s.Within n d) (hs : s.Threaded) {p : NodePtr} {f : Int}
    (hp : p ∈ s.nodesAt (s.heap p).freq) (hrel : Relinked s p f t) (hn : n ≤ n') (hf : f ≤ n')
    (hd : d + (f - (s.heap p).freq) ≤ d') : t.Within n' d' := by
  have hsum := hrel.listedSum_add hs hp
  have hle := h.listedSum_le
  constructor
  case max_nonneg => exact hrel.maxAverageNum_eq ▸ h.max_nonneg
  case freq_le =>
    intro q
    by_cases hq : q = p
    · rw [hq, hrel.freq_self]
      exact hf
    · rw [hrel.heap_other hq]
      exact (h.freq_le q).trans hn
  case minFreq_le =>
    rw [hrel.eq_rest]
    exact h.minFreq_le.trans (max_le_max_left _ hn)
  case total_le => exact hrel.total_eq ▸ h.total_le.trans hn
  case listedSum_le =>
    rw [hrel.total_eq]
    omega
  case average_ge =>
    rw [hrel.eq_rest]
    exact h.average_ge
  case average_lt =>
    intro hlt
    rw [hrel.eq_rest]
    exact h.average_lt (Int.lt_of_le_of_lt hn hlt)

/-! ## §4 Accesses -/

/-- An aging pass raises no frequency. -/
theorem foldlM_ageNode {L : List NodePtr} (h : s.Within n d) (hs : s.Threaded)
    (hres : ∀ p ∈ L, s.Resident p) (ht : L.foldlM RainLfu.ageNode s = some t) :
    t.Within n d := by
  -- induction on the nodes still to be visited; the lists stay threaded
  induction L generalizing s with
  | nil =>
    cases ht
    exact h
  | cons p L ih =>
    obtain ⟨u, hu, hthreaded, hrel⟩ := hs.ageNode_relinked (hres p List.mem_cons_self)
    rw [List.foldlM_cons, hu] at ht
    have hp := hs.placed p (hres p List.mem_cons_self)
    have hpos := hs.freq_pos p (hs.listed _ p hp).1
    have haged : agedFreq s.maxAverageNum_ (s.heap p).freq ≤ (s.heap p).freq :=
      agedFreq_le h.max_nonneg hpos
    have hu' : u.Within n d :=
      h.relinked hs hp hrel (le_refl n) (haged.trans (h.freq_le p)) (by omega)
    exact ih hu' hthreaded
      (fun q hq => (hrel.resident_iff q).mpr (hres q (List.mem_cons_of_mem p hq))) ht

omit [DecidableEq Key] [Inhabited Key] [Inhabited Value] in
/-- `updateMinFreq` finds nothing above `INT8_MAX`. -/
theorem updateMinFreq (h : s.Within n d) : s.updateMinFreq.Within n d := by
  apply h.setMinFreq
  obtain ⟨hle, -⟩ := leastListed_spec s.freqToFreqList_.entries int8Max
  have hcap : (1 : Int) ≤ int8Max := by decide
  split
  · exact hcap.trans (le_max_left _ _)
  · exact hle.trans (le_max_left _ _)

/-- `addFreqNum` counts the access. -/
theorem addFreqNum (h : s.Within n (d + 1)) (hs : s.Threaded) (htotal : s.curTotalNum_ < n)
    {env : Env Key} (ht : s.addFreqNum env = some t) : t.Within n d := by
  have hle := h.listedSum_le
  have hcounted : (s.setTotal (s.curTotalNum_ + 1)).Within n d := h.setTotal htotal (by omega)
  unfold RainLfu.addFreqNum at ht
  simp only at ht
  split at ht
  · unfold RainLfu.handleOverMaxAverageNum at ht
    split at ht
    · cases ht
      exact hcounted
    · obtain ⟨u, hu, hmin⟩ := Option.bind_eq_some_iff.mp ht
      cases hmin
      exact (hcounted.foldlM_ageNode (hs.setTotal _)
        (fun p hp => (env.order_perm _).mem_iff.mp hp) hu).updateMinFreq
  · cases ht
    exact hcounted

/-- A hit raises one frequency and the total. -/
theorem getInternal (h : s.Within n d) (hs : s.Threaded) {p : NodePtr} (hp : s.Resident p)
    {env : Env Key} {v : Value} (ht : s.getInternal env p = some (v, t)) :
    t.Within (n + 1) d := by
  have hplaced := hs.placed p hp
  have hpos : 1 ≤ (s.heap p).freq + 1 := Int.le_add_one (hs.freq_pos p (hs.mapped p hp))
  obtain ⟨s₁, hs₁, ht⟩ := Option.bind_eq_some_iff.mp ht
  obtain ⟨lists, rfl⟩ := exists_setLists_of_remove hs₁
  obtain ⟨s₂, hs₂, ht⟩ := Option.bind_eq_some_iff.mp ht
  obtain ⟨hrel, hthreaded⟩ := hs.relinked_of hplaced hpos hs₁ hs₂
  have hfreq := h.freq_le p
  have h₂ : s₂.Within (n + 1) (d + 1) :=
    h.relinked hs hplaced hrel (by omega) (by omega) (by omega)
  -- the total has not been raised yet
  have htotal : s₂.curTotalNum_ < n + 1 := by
    have hle := h.total_le
    rw [hrel.total_eq]
    omega
  obtain ⟨moved, hmoved, ht⟩ := Option.bind_eq_some_iff.mp ht
  obtain ⟨s₄, hs₄, ht⟩ := Option.bind_eq_some_iff.mp ht
  cases ht
  cases moved with
  | false => exact h₂.addFreqNum hthreaded htotal hs₄
  | true =>
    -- `minFreq_` moves on to the new frequency of the node
    have hleft : (s₂.heap p).freq - 1 = s₂.minFreq_ := by
      by_contra hne
      rw [leftMinList, if_neg hne] at hmoved
      cases hmoved
    have hmin : s₂.minFreq_ + 1 ≤ max int8Max (n + 1) := by
      have hnew := h₂.freq_le p
      exact le_max_of_le_right (by omega)
    exact (h₂.setMinFreq hmin).addFreqNum (hthreaded.setMinFreq
      (Int.le_add_one hthreaded.minFreq_pos)) htotal hs₄

/-! ## §5 Room for a new key -/

omit [Inhabited Key] [Inhabited Value] in
theorem eraseKey (h : s.Within n d) (key : Key) : (s.eraseKey key).Within n d :=
  ⟨h.max_nonneg, h.freq_le, h.minFreq_le, h.total_le, h.listedSum_le, h.average_ge, h.average_lt⟩

/-- `kickOut` lowers the sum by as much as the total, unless it meets the sentinel. -/
theorem kickOut (h : s.Within n d) (hs : s.Threaded) {env : Env Key}
    (ht : s.kickOut env = some t) : t.Within n (d + 1) := by
  have hsum := h.listedSum_le
  have htotal := h.total_le
  obtain ⟨l, hl, hkick⟩ := Option.bind_eq_some_iff.mp ht
  cases hfirst : l.getFirstNode with
  | none =>
    rw [hfirst] at hkick
    obtain ⟨-, -, hdone⟩ := Option.bind_eq_some_iff.mp hkick
    cases hdone
    -- the sentinel costs 1, and no node leaves its list
    exact (h.eraseKey env.sentinelKey).setTotal (show s.curTotalNum_ - 1 ≤ n by omega)
      (show s.listedSum ≤ s.curTotalNum_ - 1 + (d + 1) by omega)
  | some p =>
    rw [hfirst] at hkick
    obtain ⟨u, hu, hdone⟩ := Option.bind_eq_some_iff.mp hkick
    cases hdone
    have hmin : p ∈ s.nodesAt s.minFreq_ := by
      rw [nodesAt, hl]
      exact List.mem_of_head? hfirst
    have hp : p ∈ s.nodesAt (s.heap p).freq := by rwa [hs.own _ p hmin]
    obtain ⟨lists, hrem, -, -, hnodes⟩ := hs.remove hp
    rw [hu, Option.some.injEq] at hrem
    subst hrem
    have hless := listedSum_remove hs hp hnodes
    have hpos := hs.freq_pos p (hs.listed _ p hp).1
    have hremoved : (s.setLists lists).Within n d :=
      ⟨h.max_nonneg, h.freq_le, h.minFreq_le, h.total_le,
        show (s.setLists lists).listedSum ≤ s.curTotalNum_ + d by omega, h.average_ge,
        h.average_lt⟩
    exact (hremoved.eraseKey (s.heap p).key).setTotal
      (show s.curTotalNum_ - (s.heap p).freq ≤ n by omega)
      (show (s.setLists lists).listedSum ≤ s.curTotalNum_ - (s.heap p).freq + (d + 1) by omega)

/-- The node of a new key has frequency 1. -/
theorem makeNode (h : s.Within n d) (hs : s.Threaded) (hn : 1 ≤ n) {key : Key} {value : Value}
    (ht : (s.makeNode key value).addToFreqList s.fresh = some t) : t.Within n (d + 1) := by
  obtain ⟨lists, hadd, -, -, hnodes⟩ :=
    addToFreqList_spec (s := s.makeNode key value) s.fresh hs.nonnull
  rw [ht, Option.some.injEq] at hadd
  subst hadd
  have hself : (((s.makeNode key value).setLists lists).heap s.fresh).freq = 1 := by simp
  have hfreq : ((s.makeNode key value).heap s.fresh).freq = 1 := hself
  rw [hfreq] at hnodes
  have hsum := listedSum_makeNode hnodes
  have hle := h.listedSum_le
  refine ⟨h.max_nonneg, fun p => ?_, h.minFreq_le, h.total_le, ?_, h.average_ge, h.average_lt⟩
  · by_cases hp : p = s.fresh
    · rw [hp, hself]
      exact hn
    · have hheap : ((s.makeNode key value).setLists lists).heap p = s.heap p := by simp [hp]
      rw [hheap]
      exact h.freq_le p
  · rw [hsum]
    show s.listedSum + 1 ≤ s.curTotalNum_ + (d + 1)
    omega

/-- A new key in a cache that has room for it. -/
theorem insertNew (h : s.Within n d) (hs : s.Threaded) (hn : 0 ≤ n) {key : Key} {value : Value}
    (hkey : s.nodeMap_.lookup key = none) {env : Env Key}
    (ht : s.insertNew env key value = some t) : t.Within (n + 1) d := by
  obtain ⟨u, hu, ht⟩ := Option.bind_eq_some_iff.mp ht
  obtain ⟨v, hv, ht⟩ := Option.bind_eq_some_iff.mp ht
  cases ht
  obtain ⟨lists, hadd, hthreaded, -⟩ := hs.makeNode value hkey
  rw [hu, Option.some.injEq] at hadd
  subst hadd
  have hmore : s.Within (n + 1) d := h.mono (by omega) (le_refl d)
  have hmade := hmore.makeNode hs (by omega) hu
  have htotal : s.curTotalNum_ < n + 1 := Int.lt_add_one_of_le h.total_le
  have hdone := hmade.addFreqNum hthreaded htotal hv
  exact hdone.setMinFreq ((min_le_left _ _).trans hdone.minFreq_le)

theorem putInternal (h : s.Within n n) (hs : s.Sturdy) (hn : 0 ≤ n) {key : Key} {value : Value}
    (hcap : s.capacity_ ≠ 0) (hkey : s.nodeMap_.lookup key = none) {env : Env Key}
    (ht : s.putInternal env key value = some t) : t.Within (n + 1) (n + 1) := by
  rw [putInternal_eq] at ht
  obtain ⟨u, hu, ht⟩ := Option.bind_eq_some_iff.mp ht
  unfold makeRoom at hu
  split at hu
  · rename_i hfull
    have hled := hs.led_of_full hcap hfull
    obtain ⟨u', lost, hu', hthreaded, -, hmap, -⟩ := hs.toThreaded.kickOut hled env
    rw [hu, Option.some.injEq] at hu'
    subst hu'
    have hroom := h.kickOut hs.toThreaded hu
    have hukey : u.nodeMap_.lookup key = none := hmap ▸ lookup_erase_eq_none hkey lost
    exact hroom.insertNew hthreaded hn hukey ht
  · cases hu
    exact (h.insertNew hs.toThreaded hn hkey ht).mono (le_refl _) (by omega)

/-! ## §6 Runs -/

/-- `purge` leaves the counters, and no node in a list. -/
theorem purge (h : s.Within n d) (hs : s.Sturdy) : s.purge.Within n d := by
  have hsum : s.purge.listedSum = 0 := Finset.sum_eq_zero fun p _ => listedFreq_of_not_mem nofun
  have hle := (listedSum_nonneg hs.freq_pos).trans h.listedSum_le
  exact ⟨h.max_nonneg, h.freq_le, h.minFreq_le, h.total_le, hsum ▸ hle, h.average_ge, h.average_lt⟩

/-- **One operation** raises the bounds by the accesses that it counts as. -/
theorem perform (h : s.Within n n) (hs : s.Sturdy) (hn : 0 ≤ n) {env : Env Key}
    {op : Op Key Value} {result : Option Value} (ht : s.perform env op = some (t, result)) :
    t.Within (n + op.accesses) (n + op.accesses) := by
  have hresident : ∀ {key p}, s.nodeMap_.lookup key = some p → s.Resident p :=
    fun hp => (RainLfu.resident_iff s _).mpr ⟨_, hp⟩
  have hstay : s.Within (n + 1) (n + 1) := h.mono (by omega) (by omega)
  cases op with
  | put key value =>
    obtain ⟨u, hu, heq⟩ := Option.map_eq_some_iff.mp ht
    cases heq
    show t.Within (n + 1) (n + 1)
    unfold RainLfu.put at hu
    split at hu
    · cases hu
      exact hstay
    · rename_i hcap
      split at hu
      · rename_i p hlook
        obtain ⟨⟨v, w⟩, hw, rfl⟩ := Option.map_eq_some_iff.mp hu
        have hset := hs.toThreaded.setValue (hresident hlook) value
        exact ((h.setValue p value).getInternal hset (hresident hlook) hw).mono (le_refl _)
          (by omega)
      · rename_i hlook
        exact h.putInternal hs hn hcap hlook hu
  | get key =>
    obtain ⟨⟨v, u⟩, hu, heq⟩ := Option.map_eq_some_iff.mp ht
    cases heq
    show u.Within (n + 1) (n + 1)
    unfold RainLfu.get at hu
    split at hu
    · rename_i p hlook
      obtain ⟨⟨w, x⟩, hx, heq⟩ := Option.map_eq_some_iff.mp hu
      cases heq
      exact (h.getInternal hs.toThreaded (hresident hlook) hx).mono (le_refl _) (by omega)
    · cases hu
      exact hstay
  | purge =>
    cases ht
    show s.purge.Within (n + 0) (n + 0)
    rw [add_zero]
    exact h.purge hs

/-- **A run** raises them by all its accesses. -/
theorem performAll {n : Nat} (h : s.Within n n) (hs : s.Sturdy)
    {ops : List (Op Key Value × Env Key)} {results : List (Option Value)}
    (ht : s.performAll ops = some (t, results)) :
    t.Sturdy ∧ t.Within ↑(n + accesses ops) ↑(n + accesses ops) := by
  induction ops generalizing s n results with
  | nil =>
    cases ht
    exact ⟨hs, h⟩
  | cons head rest ih =>
    obtain ⟨op, env⟩ := head
    obtain ⟨u, result, hu, hsturdy, -⟩ := hs.perform env op
    have hrest : (u.performAll rest).bind (fun r => some (r.1, result :: r.2)) =
        some (t, results) := by
      rw [RainLfu.performAll, hu] at ht
      exact ht
    obtain ⟨⟨w, others⟩, hw, heq⟩ := Option.bind_eq_some_iff.mp hrest
    cases heq
    have hnext : u.Within ↑(n + op.accesses) ↑(n + op.accesses) := by
      rw [Int.natCast_add]
      exact h.perform hs (Int.natCast_nonneg n) hu
    have hdone := ih hnext hsturdy hw
    rw [Nat.add_assoc] at hdone
    exact hdone

end Within

section Keyed

variable [DecidableEq Key] [Inhabited Key] [Inhabited Value]

omit [DecidableEq Key] in
theorem within_new (capacity : Int) {maxAverageNum : Int} (hmax : 0 ≤ maxAverageNum) :
    (new capacity maxAverageNum : RainLfu Key Value).Within 0 0 where
  max_nonneg := hmax
  freq_le _ := le_refl 0
  minFreq_le := le_max_left _ _
  total_le := le_refl 0
  listedSum_le := le_refl 0
  average_ge := show -2 ^ 31 ≤ (0 : Int) by decide
  average_lt _ := show (0 : Int) < 2 ^ 31 by decide

/-- The bounds are those of `int` as long as there are few accesses. -/
theorem Within.ints {s : RainLfu Key Value} {n : Int} (h : s.Within n n) (hs : s.Sturdy)
    (hn : n < 2 ^ 31) : s.Ints := by
  have hcap : max int8Max n < 2 ^ 31 := max_lt (by decide) hn
  have hmin := h.minFreq_le
  have hpos := hs.minFreq_pos
  have hsum := (listedSum_nonneg hs.freq_pos).trans h.listedSum_le
  have htotal := h.total_le
  refine ⟨⟨by omega, by omega⟩, ⟨h.average_ge, h.average_lt hn⟩, ⟨by omega, by omega⟩,
    fun p hp => ?_⟩
  have hfreq := h.freq_le p
  have hone := hs.freq_pos p hp
  exact ⟨by omega, by omega⟩

omit [DecidableEq Key] [Inhabited Key] [Inhabited Value] in
theorem accesses_append (ops₁ ops₂ : List (Op Key Value × Env Key)) :
    accesses (ops₁ ++ ops₂) = accesses ops₁ + accesses ops₂ := by
  rw [accesses, List.map_append, List.sum_append]
  rfl

/-- **No counter overflows**: after every part of a run with fewer than `2 ^ 31` accesses all
    counters are `int`s. -/
theorem performAll_ints (capacity : Int) {maxAverageNum : Int} (hmax : 0 ≤ maxAverageNum)
    {ops : List (Op Key Value × Env Key)} (hops : accesses ops < 2 ^ 31)
    {before : List (Op Key Value × Env Key)} (hbefore : before <+: ops) {t : RainLfu Key Value}
    {results : List (Option Value)}
    (ht : (new capacity maxAverageNum).performAll before = some (t, results)) : t.Ints := by
  obtain ⟨rest, rfl⟩ := hbefore
  rw [accesses_append] at hops
  obtain ⟨hsturdy, hwithin⟩ :=
    Within.performAll (n := 0) (within_new capacity hmax) (sturdy_new _ _) ht
  exact hwithin.ints hsturdy (by omega)

/-! ## §7 What a user may rely on -/

/-- **Every run of the cache is one of a lossy map**, for any capacity and any maximum that is not
    negative, stale `minFreq_` and aging passes included: no operation faults, every `get` misses or
    returns the value that was put last, and no counter overflows on the way. -/
theorem performAll_lossy (capacity : Int) {maxAverageNum : Int} (hmax : 0 ≤ maxAverageNum)
    {ops : List (Op Key Value × Env Key)} (hops : accesses ops < 2 ^ 31) :
    ∃ t results, (new capacity maxAverageNum).performAll ops = some (t, results) ∧
      LossyRun capacity (fun _ => none) (ops.map (fun op => op.1.toMapOp)) results t.valueOf ∧
      Agrees t.valueOf (exactAll (fun _ => none) (ops.map (fun op => op.1.toMapOp))) ∧
      List.Forall₂ (fun result exact => result = none ∨ result = exact) results
        (exactAnswers (fun _ => none) (ops.map (fun op => op.1.toMapOp))) ∧
      ∀ before u answers, before <+: ops →
        (new capacity maxAverageNum).performAll before = some (u, answers) → u.Ints := by
  have hnew : (new capacity maxAverageNum : RainLfu Key Value).Sturdy := sturdy_new _ _
  obtain ⟨t, results, ht, hrun⟩ := hnew.performAll ops
  have hempty : Agrees (fun _ : Key => (none : Option Value)) (fun _ => none) := fun _ _ hv => hv
  obtain ⟨hagrees, hanswers⟩ := hrun.agrees hempty (fun _ => rfl)
  exact ⟨t, results, ht, hrun, hagrees, hanswers,
    fun _ _ _ hbefore hu => performAll_ints capacity hmax hops hbefore hu⟩

/-- A cache for one entry: the second key evicts the first. -/
def oneEntry : List (Op Nat Nat × Env Nat) :=
  [.put 1 10, .get 1, .get 1, .put 2 20, .get 1, .get 2, .purge, .get 2].map
    (fun op => (op, plainEnv 0))

theorem performAll_oneEntry :
    ∃ t, (new 1 1 : RainLfu Nat Nat).performAll oneEntry =
        some (t, [none, some 10, some 10, none, none, some 20, none, none]) ∧
      LossyRun 1 (fun _ => none) (oneEntry.map (fun op => op.1.toMapOp))
        [none, some 10, some 10, none, none, some 20, none, none] t.valueOf := by
  have hfew : accesses oneEntry < 2 ^ 31 := by decide
  obtain ⟨t, results, ht, hrun, -⟩ := performAll_lossy 1 Int.one_nonneg hfew
  have hresults : ((new 1 1 : RainLfu Nat Nat).performAll oneEntry).map Prod.snd =
      some [none, some 10, some 10, none, none, some 20, none, none] := by decide +kernel
  rw [ht, Option.map_some, Option.some.injEq] at hresults
  change results = _ at hresults
  subst hresults
  exact ⟨t, ht, hrun⟩

/-- **While the entries fit, nothing is lost**: the cache answers every `get` as a map that forgets
    nothing does, and no counter overflows. -/
theorem performAll_exact {capacity maxAverageNum : Int} (hcap : capacity ≠ 0)
    (hmax : 0 ≤ maxAverageNum) {ops : List (Op Key Value × Env Key)}
    (hops : accesses ops < 2 ^ 31)
    (hfits : Fits capacity (fun _ => none) (ops.map (fun op => op.1.toMapOp))) :
    ∃ t, (new capacity maxAverageNum).performAll ops =
        some (t, exactAnswers (fun _ => none) (ops.map (fun op => op.1.toMapOp))) ∧
      t.valueOf = exactAll (fun _ => none) (ops.map (fun op => op.1.toMapOp)) ∧
      ∀ before u answers, before <+: ops →
        (new capacity maxAverageNum).performAll before = some (u, answers) → u.Ints := by
  have hnew : (new capacity maxAverageNum : RainLfu Key Value).Sturdy := sturdy_new _ _
  obtain ⟨t, results, ht, hrun⟩ := hnew.performAll ops
  obtain ⟨hmap, hanswers⟩ := hrun.exact_of_fits hcap hfits
  subst hanswers
  exact ⟨t, ht, hmap, fun _ _ _ hbefore hu => performAll_ints capacity hmax hops hbefore hu⟩

/-- A run with two keys, in which every access starts an aging pass. -/
def twoKeys : List (Op Nat Nat × Env Nat) :=
  [.put 1 10, .put 2 20, .get 1, .put 1 30, .get 2, .get 1, .purge, .get 1, .put 3 40, .get 3].map
    (fun op => (op, plainEnv 0))

theorem performAll_twoKeys : ∃ t, (new 2 0 : RainLfu Nat Nat).performAll twoKeys =
    some (t, [none, none, some 10, none, some 20, some 30, none, none, none, some 40]) := by
  have hfits : Fits 2 (fun _ => none) (twoKeys.map (fun op => op.1.toMapOp)) := by
    have hnone : ∀ k : Nat, (none : Option Nat) ≠ none ↔ k ∈ ([] : List Nat) := by simp
    exact Lib.fits_of_fitsWithin hnone (by decide)
  obtain ⟨t, ht, -⟩ := performAll_exact (by decide) (le_refl 0) (by decide) hfits
  exact ⟨t, ht⟩

end Keyed

end RainLfu

end RainWebServer.Util
