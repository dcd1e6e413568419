import RainWebServer.Util.RainLfuCounts
import Mathlib.Algebra.Group.Action.Defs
import Mathlib.Algebra.Order.Ring.Nat

/-!
# RainLfuHash: the Sliced Cache

Embeds `RainLfuHash` of `include/util/RainLfu.h`: a key is served by the slice
`Hash(key) % sliceNum_`, and every slice is a `RainLfu` of its own with the default maximum 10 for
the average, so that aging passes are frequent.

## Representation

- `Hash` is a parameter, and so is the order in which an aging pass visits a slice (`Env`).
- `std::ceil(capacity_ / double(sliceNum_))` is the exact ceiling of the quotient. The slice takes
  it as an `int`.

## Main results

- `Slices.perform` : one operation keeps every slice right
- `sliced_cache_sound` : every run is sound, and every hit returns the value that was put last
-/

namespace RainWebServer.Util

open RainLfu (Op lastAfter)

/-! ## §1 The sliced cache -/

/-- The members of `RainLfuHash`. -/
structure RainLfuHash (Key Value : Type) where
  capacity_ : Nat
  sliceNum_ : Nat
  lfuSliceCaches_ : List (RainLfu Key Value)

/-- The conversion of a `size_t` to `int`. -/
def sizeToInt (n : Nat) : Int := Int.bmod n (2 ^ 32)

namespace RainLfuHash

variable {Key Value : Type}

/-- The default of the constructor's `maxAverageNum`. -/
def defaultMaxAverageNum : Int := 10

/-- `std::ceil(capacity_ / static_cast<double>(sliceNum_))`. -/
def sliceSize (capacity sliceNum : Nat) : Nat := (capacity + sliceNum - 1) / sliceNum

/-- The constructor. -/
def new [Inhabited Key] [Inhabited Value] (hardwareConcurrency capacity : Nat)
    (sliceNum maxAverageNum : Int) : RainLfuHash Key Value :=
  let sliceNum_ := if sliceNum > 0 then sliceNum.toNat else hardwareConcurrency
  { capacity_ := capacity
    sliceNum_ := sliceNum_
    lfuSliceCaches_ := List.replicate sliceNum_
      (RainLfu.new (sizeToInt (sliceSize capacity sliceNum_)) maxAverageNum) }

/-- Replace a slice. -/
@[simps]
def setSlice (s : RainLfuHash Key Value) (i : Nat) (slice : RainLfu Key Value) :
    RainLfuHash Key Value :=
  { s with lfuSliceCaches_ := s.lfuSliceCaches_.set i slice }

/-- `purge` of every slice. -/
@[simps]
def purge (s : RainLfuHash Key Value) : RainLfuHash Key Value :=
  { s with lfuSliceCaches_ := s.lfuSliceCaches_.map RainLfu.purge }

variable [DecidableEq Key] (hash : Key → Nat)

/-- `put`. -/
def put (s : RainLfuHash Key Value) (env : Env Key) (key : Key) (value : Value) :
    Option (RainLfuHash Key Value) := do
  let sliceIndex := hash key % s.sliceNum_
  let slice ← s.lfuSliceCaches_[sliceIndex]?
  let slice ← slice.put env key value
  some (s.setSlice sliceIndex slice)

/-- `get`: the value on a hit, `none` on a miss. -/
def get (s : RainLfuHash Key Value) (env : Env Key) (key : Key) :
    Option (Option Value × RainLfuHash Key Value) := do
  let sliceIndex := hash key % s.sliceNum_
  let slice ← s.lfuSliceCaches_[sliceIndex]?
  let (value, slice) ← slice.get env key
  some (value, s.setSlice sliceIndex slice)

/-- One operation, with the result of a `get`. -/
def perform (s : RainLfuHash Key Value) (env : Env Key) :
    Op Key Value → Option (RainLfuHash Key Value × Option Value)
  | .put key value => (s.put hash env key value).map (fun t => (t, none))
  | .get key => (s.get hash env key).map (fun result => (result.2, result.1))
  | .purge => some (s.purge, none)

/-! ## §2 The statement -/

/-- What holds of the sliced cache between two operations. -/
structure Sound (sliceNum size : Nat) (s : RainLfuHash Key Value) : Prop where
  /-- A key is only in its own slice. -/
  placed : ∀ i slice key, s.lfuSliceCaches_[i]? = some slice → key ∈ slice.nodeMap_ →
    i = hash key % sliceNum
  /-- A frequency list holds exactly the residents of its frequency. -/
  listed : ∀ slice ∈ s.lfuSliceCaches_, ∀ f p,
    p ∈ slice.nodesAt f ↔ slice.Resident p ∧ (slice.heap p).freq = f
  /-- It holds each of them once. -/
  listed_once : ∀ slice ∈ s.lfuSliceCaches_, ∀ f, (slice.nodesAt f).Nodup
  minFreqOk : ∀ slice ∈ s.lfuSliceCaches_, slice.MinFreqOk
  size_le : (s.lfuSliceCaches_.map RainLfu.size).sum ≤ sliceNum * size
  /-- The counters and the frequencies are values of `int`. -/
  in_range : ∀ slice ∈ s.lfuSliceCaches_, 0 ≤ slice.curTotalNum_ ∧ slice.curTotalNum_ < 2 ^ 31 ∧
    ∀ p, slice.Resident p → 1 ≤ (slice.heap p).freq ∧ (slice.heap p).freq ≤ slice.curTotalNum_

/-- Every state of the run is sound, no operation faults, and every hit returns the value that
    `last` has for the key. -/
def RunSound (sliceNum size : Nat) (s : RainLfuHash Key Value) (last : Key → Option Value) :
    List (Op Key Value × Env Key) → Prop
  | [] => s.Sound hash sliceNum size
  | (op, env) :: rest => s.Sound hash sliceNum size ∧
    ∃ t result, s.perform hash env op = some (t, result) ∧
      (∀ key value, op = .get key → result = some value → last key = some value) ∧
      RunSound sliceNum size t (lastAfter last op) rest

/-- The number of accesses in a run. -/
def accesses (ops : List (Op Key Value × Env Key)) : Nat := (ops.map (fun op => op.1.accesses)).sum

end RainLfuHash

/-! ## §3 One slice -/

namespace RainLfu

variable {Key Value : Type} [DecidableEq Key]

/-- A slice of capacity 0 stays empty. -/
structure Idle (s : RainLfu Key Value) : Prop where
  capacity_eq : s.capacity_ = 0
  nodeMap_eq : s.nodeMap_ = ∅
  lists_eq : s.freqToFreqList_ = ∅
  total_eq : s.curTotalNum_ = 0

/-- A slice between two operations. -/
def Serving (s : RainLfu Key Value) : Prop := s.Counted ∨ s.Idle

omit [DecidableEq Key] in
theorem Idle.size_eq {s : RainLfu Key Value} (h : s.Idle) : s.size = 0 := by
  rw [size, h.nodeMap_eq]
  rfl

theorem Idle.valueOf_eq {s : RainLfu Key Value} (h : s.Idle) (key : Key) :
    s.valueOf key = none := by
  rw [valueOf, h.nodeMap_eq]
  rfl

/-- An operation on a slice of capacity 0 does nothing. -/
theorem Idle.perform {s : RainLfu Key Value} (h : s.Idle) (env : Env Key) (op : Op Key Value) :
    ∃ t, s.perform env op = some (t, none) ∧ t.Idle ∧ t.maxAverageNum_ = s.maxAverageNum_ := by
  cases op with
  | put key value =>
    refine ⟨s, ?_, h, rfl⟩
    rw [RainLfu.perform, RainLfu.put, if_pos h.capacity_eq, Option.map_some]
  | get key =>
    refine ⟨s, ?_, h, rfl⟩
    have hmiss : s.nodeMap_.lookup key = none := by
      rw [h.nodeMap_eq]
      rfl
    simp only [RainLfu.perform, RainLfu.get, hmiss, Option.map_some]
  | purge => exact ⟨s.purge, rfl, ⟨h.capacity_eq, rfl, rfl, h.total_eq⟩, rfl⟩

/-- **One operation on a slice.** -/
theorem Serving.perform {s : RainLfu Key Value} (h : s.Serving) (env : Env Key)
    (op : Op Key Value) :
    ∃ t result, s.perform env op = some (t, result) ∧ t.Serving ∧ t.capacity_ = s.capacity_ ∧
      t.curTotalNum_ ≤ s.curTotalNum_ + op.accesses ∧
      (∀ last, s.Remembers last → t.Remembers (lastAfter last op)) ∧
      ∀ key, op = .get key → result = s.valueOf key := by
  rcases h with hcounted | hidle
  · obtain ⟨t, result, hperform, hcounted_t, hcap, -, hrest⟩ := hcounted.perform env op
    exact ⟨t, result, hperform, .inl hcounted_t, hcap, hrest⟩
  · obtain ⟨t, hperform, hidle_t, -⟩ := hidle.perform env op
    refine ⟨t, none, hperform, .inr hidle_t, hidle_t.capacity_eq.trans hidle.capacity_eq.symm, ?_,
      fun last _ key value hvalue => ?_, fun key _ => (hidle.valueOf_eq key).symm⟩
    · rw [hidle_t.total_eq, hidle.total_eq]
      omega
    · rw [hidle_t.valueOf_eq] at hvalue
      cases hvalue

theorem Serving.linked {s : RainLfu Key Value} (h : s.Serving) : s.Linked := by
  rcases h with hcounted | hidle
  · exact hcounted.linked
  · exact linked_of_empty hidle.nodeMap_eq hidle.lists_eq

theorem Serving.minFreqOk {s : RainLfu Key Value} (h : s.Serving) : s.MinFreqOk := by
  rcases h with hcounted | hidle
  · exact hcounted.minFreqOk
  · exact fun hne => absurd hidle.size_eq hne

theorem Serving.size_le {s : RainLfu Key Value} (h : s.Serving) : (s.size : Int) ≤ s.capacity_ := by
  rcases h with hcounted | hidle
  · exact hcounted.size_le
  · rw [hidle.size_eq, hidle.capacity_eq]
    exact le_refl _

/-- The frequencies are at most the total. -/
theorem Serving.freqSum_le {s : RainLfu Key Value} (h : s.Serving) :
    s.freqSum ≤ s.curTotalNum_ := by
  rcases h with hcounted | hidle
  · exact hcounted.sum_le
  · rw [freqSum, nodePtrs, hidle.nodeMap_eq, hidle.total_eq]
    exact le_refl _

/-- A new slice. -/
theorem serving_new [Inhabited Key] [Inhabited Value] {capacity : Int} (hcap : 0 ≤ capacity)
    {maxAverageNum : Int} (htwo : 2 ≤ maxAverageNum) (hmax : maxAverageNum < int8Max) :
    (new capacity maxAverageNum : RainLfu Key Value).Serving := by
  rcases Int.lt_or_eq_of_le hcap with hpos | hzero
  · exact .inl ⟨inv_new hpos (by omega), htwo, hmax, le_refl _, fun hne => absurd rfl hne⟩
  · exact .inr ⟨hzero.symm, rfl, rfl, rfl⟩

/-- A slice holds nothing but what it held and what the operation put. -/
theorem Remembers.valueOf_after {s t : RainLfu Key Value} {op : Op Key Value}
    (hkeep : ∀ last, s.Remembers last → t.Remembers (lastAfter last op)) {key : Key}
    (ht : t.valueOf key ≠ none) : s.valueOf key ≠ none ∨ ∃ value, op = .put key value := by
  obtain ⟨v, hv⟩ := Option.ne_none_iff_exists'.mp ht
  have hafter := hkeep s.valueOf (fun _ _ h => h) key v hv
  cases op with
  | put k value =>
    rw [lastAfter, Function.update_apply] at hafter
    split at hafter
    · rename_i hk
      exact .inr ⟨value, hk ▸ rfl⟩
    · exact .inl (by rw [hafter]; exact Option.some_ne_none v)
  | get k =>
    rw [lastAfter] at hafter
    exact .inl (by rw [hafter]; exact Option.some_ne_none v)
  | purge =>
    rw [lastAfter] at hafter
    exact .inl (by rw [hafter]; exact Option.some_ne_none v)

end RainLfu

/-! ## §4 All slices -/

namespace RainLfuHash

variable {Key Value : Type} [DecidableEq Key] (hash : Key → Nat)

/-- The slice at index `i`, after `n` accesses. -/
structure SliceOk (sliceNum size n : Nat) (last : Key → Option Value) (i : Nat)
    (slice : RainLfu Key Value) : Prop where
  serving : slice.Serving
  capacity_eq : slice.capacity_ = size
  total_le : slice.curTotalNum_ ≤ n
  remembers : slice.Remembers last
  placed : ∀ key, slice.valueOf key ≠ none → hash key % sliceNum = i

/-- All slices, after `n` accesses. -/
structure Slices (sliceNum size n : Nat) (last : Key → Option Value)
    (s : RainLfuHash Key Value) : Prop where
  sliceNum_pos : 1 ≤ sliceNum
  sliceNum_eq : s.sliceNum_ = sliceNum
  length_eq : s.lfuSliceCaches_.length = sliceNum
  slice : ∀ i slice, s.lfuSliceCaches_[i]? = some slice →
    SliceOk hash sliceNum size n last i slice

variable {hash}

/-- The slice that an operation addresses. -/
theorem SliceOk.perform {sliceNum size n : Nat} {last : Key → Option Value} {i : Nat}
    {slice : RainLfu Key Value} (h : SliceOk hash sliceNum size n last i slice) (env : Env Key)
    (op : Op Key Value) (hown : ∀ key value, op = .put key value → hash key % sliceNum = i) :
    ∃ t result, slice.perform env op = some (t, result) ∧
      SliceOk hash sliceNum size (n + op.accesses) (lastAfter last op) i t ∧
      ∀ key value, op = .get key → result = some value → last key = some value := by
  obtain ⟨t, result, hperform, hserving, hcap, htotal, hkeep, hresult⟩ := h.serving.perform env op
  refine ⟨t, result, hperform, ⟨hserving, hcap.trans h.capacity_eq, ?_, hkeep last h.remembers,
    fun key hkey => ?_⟩, fun key value hop hvalue => ?_⟩
  · have hle := h.total_le
    push_cast
    omega
  · rcases RainLfu.Remembers.valueOf_after hkeep hkey with hold | ⟨value, hop⟩
    · exact h.placed key hold
    · exact hown key value hop
  · exact h.remembers key value (hresult key hop ▸ hvalue)

/-- A slice that a `put` does not address: the key is not in it. -/
theorem SliceOk.other {sliceNum size n : Nat} {last : Key → Option Value} {i : Nat}
    {slice : RainLfu Key Value} (h : SliceOk hash sliceNum size n last i slice)
    (op : Op Key Value) (hown : ∀ key value, op = .put key value → hash key % sliceNum ≠ i) :
    SliceOk hash sliceNum size (n + op.accesses) (lastAfter last op) i slice := by
  refine ⟨h.serving, h.capacity_eq, ?_, fun key value hvalue => ?_, h.placed⟩
  · have hle := h.total_le
    push_cast
    omega
  · have hlast := h.remembers key value hvalue
    cases op with
    | put k v =>
      have hne : key ≠ k := by
        intro hk
        refine hown k v rfl (hk ▸ h.placed key ?_)
        rw [hvalue]
        exact Option.some_ne_none value
      rw [lastAfter, Function.update_of_ne hne]
      exact hlast
    | get k => exact hlast
    | purge => exact hlast

/-- An operation that addresses the slice at `i` leaves the others alone. -/
theorem Slices.setSlice {sliceNum size n : Nat} {last : Key → Option Value}
    {s : RainLfuHash Key Value} (h : s.Slices hash sliceNum size n last)
    {op : Op Key Value} {i : Nat}
    (hown : ∀ key value, op = .put key value → hash key % sliceNum = i) {t : RainLfu Key Value}
    (ht : SliceOk hash sliceNum size (n + op.accesses) (lastAfter last op) i t) :
    (s.setSlice i t).Slices hash sliceNum size (n + op.accesses) (lastAfter last op) := by
  refine ⟨h.sliceNum_pos, h.sliceNum_eq, ?_, fun j slice hslice => ?_⟩
  · rw [setSlice_lfuSliceCaches_, List.length_set]
    exact h.length_eq
  · rw [setSlice_lfuSliceCaches_, List.getElem?_set] at hslice
    split at hslice
    · rename_i hij
      split at hslice
      · cases hslice
        exact hij ▸ ht
      · cases hslice
    · rename_i hij
      refine (h.slice j slice hslice).other op fun key value hop hj => hij ?_
      rw [← hown key value hop, hj]

/-- **One operation keeps every slice right.** -/
theorem Slices.perform {sliceNum size n : Nat} {last : Key → Option Value}
    {s : RainLfuHash Key Value} (h : s.Slices hash sliceNum size n last) (env : Env Key)
    (op : Op Key Value) :
    ∃ t result, s.perform hash env op = some (t, result) ∧
      t.Slices hash sliceNum size (n + op.accesses) (lastAfter last op) ∧
      ∀ key value, op = .get key → result = some value → last key = some value := by
  -- `hash % sliceNum_` is the index of a slice, so no slice is missing
  have haddressed : ∀ key : Key, ∃ slice,
      s.lfuSliceCaches_[hash key % s.sliceNum_]? = some slice := by
    intro key
    refine ⟨_, List.getElem?_eq_getElem ?_⟩
    rw [h.length_eq, h.sliceNum_eq]
    exact Nat.mod_lt _ h.sliceNum_pos
  cases op with
  | put key value =>
    obtain ⟨slice, hslice⟩ := haddressed key
    have hown : ∀ k v, (Op.put key value : Op Key Value) = .put k v →
        hash k % sliceNum = hash key % s.sliceNum_ := by
      intro k v hop
      cases hop
      rw [h.sliceNum_eq]
    obtain ⟨t, result, hperform, hok, -⟩ :=
      (h.slice _ slice hslice).perform env (.put key value) hown
    obtain ⟨t', hput, ht'⟩ := Option.map_eq_some_iff.mp hperform
    cases ht'
    refine ⟨s.setSlice (hash key % s.sliceNum_) t, none, ?_, h.setSlice hown hok,
      fun k v hop => by cases hop⟩
    simp only [RainLfuHash.perform, RainLfuHash.put, hslice, hput, Option.bind_eq_bind,
      Option.bind_some, Option.map_some]
  | get key =>
    obtain ⟨slice, hslice⟩ := haddressed key
    -- a `get` stores nothing, so it need not belong anywhere
    have hown : ∀ k v, (Op.get key : Op Key Value) = .put k v →
        hash k % sliceNum = hash key % s.sliceNum_ := by
      intro k v hop
      cases hop
    obtain ⟨t, result, hperform, hok, hresult⟩ :=
      (h.slice _ slice hslice).perform env (.get key) hown
    obtain ⟨⟨value, t'⟩, hget, ht'⟩ := Option.map_eq_some_iff.mp hperform
    cases ht'
    refine ⟨s.setSlice (hash key % s.sliceNum_) t', value, ?_, h.setSlice hown hok, hresult⟩
    simp only [RainLfuHash.perform, RainLfuHash.get, hslice, hget, Option.bind_eq_bind,
      Option.bind_some, Option.map_some]
  | purge =>
    refine ⟨s.purge, none, rfl, ⟨h.sliceNum_pos, h.sliceNum_eq, ?_, fun i slice hslice => ?_⟩,
      fun k v hop => by cases hop⟩
    · rw [purge_lfuSliceCaches_, List.length_map]
      exact h.length_eq
    · rw [purge_lfuSliceCaches_, List.getElem?_map] at hslice
      -- `purge` visits every slice, each on its own
      obtain ⟨old, hold, rfl⟩ := Option.map_eq_some_iff.mp hslice
      obtain ⟨t, result, hperform, hok, -⟩ :=
        (h.slice i old hold).perform env .purge (fun k v hop => by cases hop)
      cases hperform
      exact hok

/-- The slices are as the statement says. -/
theorem Slices.sound {sliceNum size n : Nat} {last : Key → Option Value}
    {s : RainLfuHash Key Value} (h : s.Slices hash sliceNum size n last) (hn : n < 2 ^ 31) :
    s.Sound hash sliceNum size := by
  have hmem : ∀ slice ∈ s.lfuSliceCaches_, ∃ i, SliceOk hash sliceNum size n last i slice := by
    intro slice hslice
    obtain ⟨i, hi⟩ := List.mem_iff_getElem?.mp hslice
    exact ⟨i, h.slice i slice hi⟩
  constructor
  case placed =>
    intro i slice key hslice hkey
    refine ((h.slice i slice hslice).placed key ?_).symm
    obtain ⟨p, hp⟩ := Option.isSome_iff_exists.mp (AList.lookup_isSome.mpr hkey)
    rw [RainLfu.valueOf, hp]
    exact Option.some_ne_none _
  case listed =>
    intro slice hslice f p
    obtain ⟨i, hok⟩ := hmem slice hslice
    exact hok.serving.linked.mem_nodesAt f p
  case listed_once =>
    intro slice hslice f
    obtain ⟨i, hok⟩ := hmem slice hslice
    exact hok.serving.linked.nodup f
  case minFreqOk =>
    intro slice hslice
    obtain ⟨i, hok⟩ := hmem slice hslice
    exact hok.serving.minFreqOk
  case size_le =>
    -- every slice is within its capacity, and there are `sliceNum` of them
    have hbound := List.sum_le_card_nsmul (s.lfuSliceCaches_.map RainLfu.size) size (by
      intro k hk
      obtain ⟨slice, hslice, rfl⟩ := List.mem_map.mp hk
      obtain ⟨i, hok⟩ := hmem slice hslice
      have hle := hok.serving.size_le
      rw [hok.capacity_eq] at hle
      omega)
    rw [List.length_map, h.length_eq, smul_eq_mul] at hbound
    exact hbound
  case in_range =>
    intro slice hslice
    obtain ⟨i, hok⟩ := hmem slice hslice
    -- a frequency is at most the sum, the sum at most the total, the total the accesses so far
    have hpos := hok.serving.linked.freq_pos
    have hsum := hok.serving.freqSum_le
    have htotal := hok.total_le
    have hnonneg : 0 ≤ slice.freqSum := RainLfu.freqSum_nonneg hpos
    refine ⟨by omega, by omega, fun p hp => ⟨hpos p hp, ?_⟩⟩
    exact (RainLfu.freq_le_freqSum hpos hp).trans hsum

/-! ## §5 Runs -/

/-- From slices that are right, a run goes on soundly. -/
theorem Slices.run {sliceNum size n : Nat} {last : Key → Option Value}
    {s : RainLfuHash Key Value} (h : s.Slices hash sliceNum size n last)
    (ops : List (Op Key Value × Env Key)) (hn : n + accesses ops < 2 ^ 31) :
    s.RunSound hash sliceNum size last ops := by
  induction ops generalizing s n last with
  | nil => exact h.sound (by simpa [accesses] using hn)
  | cons head rest ih =>
    obtain ⟨op, env⟩ := head
    have hcount : accesses ((op, env) :: rest) = op.accesses + accesses rest := rfl
    obtain ⟨t, result, hperform, hslices, hresult⟩ := h.perform env op
    exact ⟨h.sound (by omega), t, result, hperform, hresult, ih hslices (by omega)⟩

theorem sizeToInt_of_lt {n : Nat} (h : n < 2 ^ 31) : sizeToInt n = n := by
  exact Int.bmod_eq_of_le (by omega) (by omega)

/-- **Every run of the sliced cache is sound.** In every state a key is resident only in the slice
    of its hash, the frequency lists of a slice hold exactly its residents, each once and at its
    own frequency, `minFreq_` is the least frequency, and no more than `sliceNum` slices of the
    slice size are resident; and every hit returns the value of the last `put` of its key. -/
theorem sliced_cache_sound [Inhabited Key] [Inhabited Value] (hash : Key → Nat)
    (hardwareConcurrency capacity : Nat) (sliceNum : Int) (hslices : 1 ≤ sliceNum)
    (hsize : sliceSize capacity sliceNum.toNat < 2 ^ 31) (ops : List (Op Key Value × Env Key))
    (hops : accesses ops < 2 ^ 31) :
    (new hardwareConcurrency capacity sliceNum defaultMaxAverageNum).RunSound hash sliceNum.toNat
      (sliceSize capacity sliceNum.toNat) (fun _ => none) ops := by
  have hnew : (new hardwareConcurrency capacity sliceNum defaultMaxAverageNum :
      RainLfuHash Key Value) = ⟨capacity, sliceNum.toNat, List.replicate sliceNum.toNat
        (RainLfu.new (sliceSize capacity sliceNum.toNat) defaultMaxAverageNum)⟩ := by
    have hpos : sliceNum > 0 := hslices
    simp only [new, if_pos hpos, sizeToInt_of_lt hsize]
  have hsome : 1 ≤ sliceNum.toNat := by omega
  rw [hnew]
  refine Slices.run (n := 0) ⟨hsome, rfl, List.length_replicate, fun i slice hslice => ?_⟩ ops
    (by omega)
  obtain rfl : slice = RainLfu.new (sliceSize capacity sliceNum.toNat) defaultMaxAverageNum :=
    List.eq_of_mem_replicate (List.mem_of_getElem? hslice)
  have hserving : (RainLfu.new (sliceSize capacity sliceNum.toNat) defaultMaxAverageNum :
      RainLfu Key Value).Serving :=
    RainLfu.serving_new (Int.natCast_nonneg _) (by decide) (by decide)
  exact ⟨hserving, rfl, le_refl _, (fun key value hvalue => by cases hvalue),
    fun key hkey => absurd rfl hkey⟩

/-- Two slices for a capacity of 3. The hits of key 1 start aging passes in its slice, the keys 3
    and 5 join it there and evict, and key 2 is in the other slice. -/
def agingRun : List (Op Nat Nat × Env Nat) :=
  (Op.put 1 10 :: List.replicate 12 (Op.get 1) ++
    [Op.put 2 20, Op.put 3 30, Op.put 5 50, Op.put 1 11, Op.get 1, Op.get 3, Op.purge,
     Op.get 2]).map
    (fun op => (op, RainLfu.plainEnv 0))

/-- The results of a run, in order. -/
def results (s : RainLfuHash Nat Nat) : List (Op Nat Nat × Env Nat) → Option (List (Option Nat))
  | [] => some []
  | (op, env) :: rest => (s.perform id env op).bind (fun next =>
    (results next.1 rest).map (next.2 :: ·))

theorem agingRun_sound :
    accesses agingRun = 20 ∧
    (new 8 3 2 defaultMaxAverageNum : RainLfuHash Nat Nat).RunSound id 2 2 (fun _ => none)
      agingRun ∧
    (results (new 8 3 2 defaultMaxAverageNum) agingRun).map (·.drop 13) =
      some [none, none, none, none, some 11, none, none, none] := by
  exact ⟨by decide +kernel, sliced_cache_sound id 8 3 2 (by decide) (by decide) agingRun
    (by decide +kernel), by decide +kernel⟩

end RainLfuHash

end RainWebServer.Util
