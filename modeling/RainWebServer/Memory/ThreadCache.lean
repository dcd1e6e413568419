import Mathlib.Order.MinMax
import RainWebServer.Memory.CentralCache

/-!
# ThreadCache: the Free Lists of a Thread

Embeds `include/memory/ThreadCache.h` and `src/memory/ThreadCache.cpp`, as far as a thread works
alone: the parts of `allocate` and `deallocate` before and after their calls of the central
cache. The machine of `MemoryPool` puts them together.

`freeListSize_` is a counter of its own; it is not computed from the lists.

## Main results

- `lt_getBatchNum` : a batch has more than one block
- `splitLoop_spec` : where `returnToCentralCache` cuts the list
- `batchRight_iff` : the sizes whose batches are what the comments say
-/

namespace RainWebServer.Memory

open RainWebServer.Lib SizeClass

/-! ## §1 Model -/

/-- The members of `ThreadCache`, by size class. -/
structure ThreadCache where
  freeList_ : Nat → Addr
  freeListSize_ : Nat → Nat

namespace ThreadCache

/-- A `thread_local` object without initialisers starts zeroed. -/
def new : ThreadCache := ⟨fun _ => 0, fun _ => 0⟩

/-- Assign `freeList_[index]`. -/
def setFreeList (cache : ThreadCache) (index : Nat) (head : Addr) : ThreadCache :=
  { cache with freeList_ := Function.update cache.freeList_ index head }

/-- Assign `freeListSize_[index]`. -/
def setFreeListSize (cache : ThreadCache) (index size : Nat) : ThreadCache :=
  { cache with freeListSize_ := Function.update cache.freeListSize_ index (sizeT size) }

@[simp] theorem freeList_setFreeListSize (cache : ThreadCache) (index size : Nat) :
    (cache.setFreeListSize index size).freeList_ = cache.freeList_ := rfl

@[simp] theorem freeList_setFreeList (cache : ThreadCache) (index : Nat) (head : Addr) :
    (cache.setFreeList index head).freeList_ = Function.update cache.freeList_ index head := rfl

@[simp] theorem freeListSize_setFreeList (cache : ThreadCache) (index : Nat) (head : Addr) :
    (cache.setFreeList index head).freeListSize_ = cache.freeListSize_ := rfl

@[simp] theorem freeListSize_setFreeListSize (cache : ThreadCache) (index size : Nat) :
    (cache.setFreeListSize index size).freeListSize_ =
      Function.update cache.freeListSize_ index (sizeT size) := rfl

/-- `getBatchNum`; `sizeof(1)` is the size of an `int`. -/
def getBatchNum (size : Nat) : Nat :=
  let MAX_BATCH_SIZE := 4 * 1024
  let baseNum :=
    if size ≤ 32 then 64
    else if size ≤ 64 then 32
    else if size ≤ 128 then 16
    else if size ≤ 256 then 8
    else if size ≤ 512 then 4
    else if size ≤ 1024 then 2
    else 1
  let maxNum := max 1 (MAX_BATCH_SIZE / size)
  max 4 (min maxNum baseNum)

/-- `shouldReturnToCentralCache`. -/
def shouldReturnToCentralCache (cache : ThreadCache) (index : Nat) : Bool :=
  let threshold := 64
  cache.freeListSize_ index > threshold

/-- `allocate` up to the test of `freeList_[index]`: the counter is decremented first. -/
def beginAllocate (cache : ThreadCache) (index : Nat) : ThreadCache :=
  cache.setFreeListSize index (cache.freeListSize_ index + (2 ^ 64 - 1))

/-- `fetchFromCentralCache` after `fetchRange` returned the list `start` that is not null. -/
def takeRange (cache : ThreadCache) (mem : Words) (index : Nat) (start : Addr) : ThreadCache :=
  let batchNum := getBatchNum (blockSize index)
  let cache := cache.setFreeListSize index (cache.freeListSize_ index + batchNum)
  if batchNum > 1 then cache.setFreeList index (mem start) else cache

/-- `deallocate` up to the test of the counter, with the memory. -/
def push (cache : ThreadCache) (mem : Words) (index : Nat) (ptr : Addr) : Words × ThreadCache :=
  (Function.update mem ptr (cache.freeList_ index),
    (cache.setFreeList index ptr).setFreeListSize index (cache.freeListSize_ index + 1))

/-- The loop of `returnToCentralCache` with the `n` iterations that are left after the first
    `i`: the node where it stops (null if the list ended) and `returnNum`. -/
def splitLoop (mem : Words) (batchNum : Nat) : Nat → Nat → Addr → Nat → Addr × Nat
  | _, 0, splitNode, returnNum => (splitNode, returnNum)
  | i, n + 1, splitNode, returnNum =>
    if mem splitNode = 0 then (0, sizeT (batchNum + 2 ^ 64 - (i + 1)))
    else splitLoop mem batchNum (i + 1) n (mem splitNode) returnNum

/-- `returnToCentralCache` up to the call of `returnRange`: the memory, the members and the
    arguments of the call, if it is made. -/
def returnToCentralCache (cache : ThreadCache) (mem : Words) (start : Addr) (size : Nat) :
    Words × ThreadCache × Option (Addr × Nat) :=
  let index := getIndex size
  let alignedSize := roundUp size
  let batchNum := cache.freeListSize_ index
  if batchNum ≤ 1 then (mem, cache, none)
  else
    let keepNum := max (batchNum / 4) 1
    let (splitNode, returnNum) := splitLoop mem batchNum 0 (keepNum - 1) start (batchNum - keepNum)
    if splitNode = 0 then (mem, cache, none)
    else
      let nextNode := mem splitNode
      (Function.update mem splitNode 0,
        (cache.setFreeList index start).setFreeListSize index keepNum,
        if returnNum > 0 ∧ nextNode ≠ 0 then some (nextNode, sizeT (returnNum * alignedSize))
        else none)

/-! ## §2 Facts -/

/-- `sizeof(1)` makes every batch larger than one block. -/
theorem lt_getBatchNum (size : Nat) : 1 < getBatchNum size :=
  Nat.lt_of_lt_of_le (by decide : 1 < 4) (Nat.le_max_left _ _)

/-- The loop stops at a block of the list, unless the list is too short. -/
theorem splitLoop_spec {mem : Words} {h : Addr} {l : List Addr} (batchNum i n returnNum : Nat)
    (hchain : Chain mem 0 h l) (hne : l ≠ []) :
    (splitLoop mem batchNum i n h returnNum).1 = 0 ∧ l.length ≤ n ∨
    ∃ l₁ a l₂, l = l₁ ++ a :: l₂ ∧ l₁.length = n ∧
      splitLoop mem batchNum i n h returnNum = (a, returnNum) := by
  -- on the number of links that are still to be followed
  induction n generalizing i h l with
  | zero =>
    cases l with
    | nil => exact absurd rfl hne
    | cons a l =>
      obtain ⟨rfl, -⟩ := hchain
      exact .inr ⟨[], h, l, rfl, rfl, rfl⟩
  | succ n ih =>
    cases l with
    | nil => exact absurd rfl hne
    | cons a l =>
      obtain ⟨rfl, -, hrest⟩ := hchain
      cases l with
      | nil =>
        -- the list ends here: the loop is left with a null `splitNode`
        have hend : mem h = 0 := hrest
        rw [splitLoop, if_pos hend]
        exact .inl ⟨rfl, by simp⟩
      | cons b l =>
        have hb : mem h ≠ 0 := hrest.1 ▸ hrest.2.1
        rw [splitLoop, if_neg hb]
        rcases ih (i + 1) hrest (List.cons_ne_nil b l) with ⟨hzero, hle⟩ | hfound
        · refine .inl ⟨hzero, ?_⟩
          simp only [List.length_cons] at hle ⊢
          omega
        · obtain ⟨l₁, c, l₂, hl, hlength, heq⟩ := hfound
          exact .inr ⟨h :: l₁, c, l₂, by rw [hl]; rfl, by simp [hlength], heq⟩

/-- **What `returnToCentralCache` does to the list.** It leaves everything as it is, or it cuts
    the list in two: the first `keepNum` blocks stay the list of its class, the others, if there
    are any, are what `returnRange` is called with. -/
theorem returnToCentralCache_spec {cache : ThreadCache} {mem : Words} {size : Nat}
    {l : List Addr} (hchain : Chain mem 0 (cache.freeList_ (getIndex size)) l) (hne : l ≠ []) :
    (cache.returnToCentralCache mem (cache.freeList_ (getIndex size)) size = (mem, cache, none) ∧
      (1 < cache.freeListSize_ (getIndex size) →
        l.length < max (cache.freeListSize_ (getIndex size) / 4) 1)) ∨
    ∃ l₁ l₂ mem' cache' call,
      cache.returnToCentralCache mem (cache.freeList_ (getIndex size)) size =
        (mem', cache', call) ∧
      l = l₁ ++ l₂ ∧ cache'.freeList_ = cache.freeList_ ∧
      cache'.freeListSize_ = Function.update cache.freeListSize_ (getIndex size)
        (sizeT (max (cache.freeListSize_ (getIndex size) / 4) 1)) ∧
      l₁.length = max (cache.freeListSize_ (getIndex size) / 4) 1 ∧
      Chain mem' 0 (cache.freeList_ (getIndex size)) l₁ ∧
      (call = none → l₂ = []) ∧
      (∀ start bytes, call = some (start, bytes) → Chain mem' 0 start l₂ ∧ start ≠ 0 ∧
        bytes = sizeT ((cache.freeListSize_ (getIndex size) -
          max (cache.freeListSize_ (getIndex size) / 4) 1) * roundUp size)) ∧
      ∀ a, a ∉ l → mem' a = mem a := by
  unfold returnToCentralCache
  simp only []
  generalize cache.freeListSize_ (getIndex size) = batchNum
  rcases Nat.lt_or_ge 1 batchNum with hbatch | hbatch
  · rw [if_neg (Nat.not_le.mpr hbatch)]
    rcases splitLoop_spec batchNum 0 (max (batchNum / 4) 1 - 1) (batchNum - max (batchNum / 4) 1)
      hchain hne with ⟨hzero, hshort⟩ | hfound
    · rw [if_pos hzero]
      refine .inl ⟨rfl, fun _ => ?_⟩
      have hpos := List.length_pos_of_ne_nil hne
      omega
    · obtain ⟨l₁, a, l₂, hl, hlength, heq⟩ := hfound
      have ha : a ≠ 0 := Segment.ne_null hchain (by rw [hl]; simp)
      rw [heq, if_neg ha]
      have hcut := hchain
      rw [hl] at hcut
      obtain ⟨hkeep, hreturn⟩ := hcut.cut
      have hcount : batchNum - max (batchNum / 4) 1 > 0 := by omega
      refine .inr ⟨l₁ ++ [a], l₂, _, _, _, rfl, by simp [hl], by simp, by simp,
        ?_, hkeep, ?_, ?_, ?_⟩
      · rw [List.length_append, hlength, List.length_singleton]
        omega
      · intro hnone
        split at hnone
        · cases hnone
        · rename_i hnext
          -- something is counted, so nothing is linked
          have hend : mem a = 0 := by
            by_contra hnz
            exact hnext ⟨hcount, hnz⟩
          rw [hend] at hreturn
          exact hreturn.unique rfl
      · intro start bytes hcall
        split at hcall
        · rename_i hnext
          cases hcall
          exact ⟨hreturn, hnext.2, rfl⟩
        · cases hcall
      · intro b hb
        apply Function.update_of_ne
        rintro rfl
        apply hb
        rw [hl]
        simp
  · rw [if_pos hbatch]
    exact .inl ⟨rfl, fun hlt => absurd hlt (Nat.not_lt.mpr hbatch)⟩

/-! ## §3 Batches -/

/-- What the comments in `getBatchNum` say about the batch for blocks of a size. -/
structure BatchRight (size : Nat) : Prop where
  /-- At least one block. -/
  pos : 1 ≤ getBatchNum size
  /-- At most 4KB, unless a single block is larger. -/
  bytes : getBatchNum size * size ≤ max 4096 size
  /-- Larger blocks come in batches that are not larger. -/
  antitone : ∀ larger, size ≤ larger → getBatchNum larger ≤ getBatchNum size
  /-- Blocks above 1024 bytes are fetched one at a time. -/
  single : 1024 < size → getBatchNum size = 1

/-- Above 256 bytes the lower bound alone decides. -/
theorem getBatchNum_of_lt {size : Nat} (h : 256 < size) : getBatchNum size = 4 := by
  unfold getBatchNum
  simp only []
  apply Nat.max_eq_left
  apply Nat.le_trans (Nat.min_le_right _ _)
  split_ifs <;> omega

/-- A batch has at most 4KB, or four blocks. -/
theorem getBatchNum_mul_le (size : Nat) : getBatchNum size * size ≤ max 4096 (4 * size) := by
  have hmax : max 1 (4096 / size) * size ≤ max 4096 size := by
    rcases Nat.le_total (4096 / size) 1 with hle | hle
    · rw [Nat.max_eq_left hle, Nat.one_mul]
      exact Nat.le_max_right _ _
    · rw [Nat.max_eq_right hle]
      exact Nat.le_trans (Nat.div_mul_le_self 4096 size) (Nat.le_max_left _ _)
  have hlarge : max 4096 size ≤ max 4096 (4 * size) := by omega
  unfold getBatchNum
  simp only []
  rw [← Nat.mul_max_mul_right]
  apply Nat.max_le.mpr
  constructor
  · exact Nat.le_max_right _ _
  · apply Nat.le_trans _ (Nat.le_trans hmax hlarge)
    exact Nat.mul_le_mul_right size (Nat.min_le_left _ _)

/-- One step of `baseNum`: `a` up to the size `c`, and at most `b` behind it. -/
theorem baseNum_step {size larger b x y : Nat} (c a : Nat) (h : size ≤ larger)
    (hbehind : x ≤ y ∧ y ≤ b) (hab : b ≤ a) :
    (if larger ≤ c then a else x) ≤ (if size ≤ c then a else y) ∧
      (if size ≤ c then a else y) ≤ a := by
  obtain ⟨hxy, hyb⟩ := hbehind
  by_cases hlarger : larger ≤ c
  · rw [if_pos hlarger, if_pos (Nat.le_trans h hlarger)]
    exact ⟨le_refl a, le_refl a⟩
  · rw [if_neg hlarger]
    split
    · exact ⟨by omega, le_refl a⟩
    · exact ⟨hxy, Nat.le_trans hyb hab⟩

/-- The three bounds all fall with the size. -/
theorem getBatchNum_antitone {size larger : Nat} (hpos : 1 ≤ size) (h : size ≤ larger) :
    getBatchNum larger ≤ getBatchNum size := by
  have hquotient : 4096 / larger ≤ 4096 / size := Nat.div_le_div_left h hpos
  -- the steps from the last one on
  have h1024 := baseNum_step 1024 2 h ⟨le_refl 1, le_refl 1⟩ (by decide)
  have h512 := baseNum_step 512 4 h h1024 (by decide)
  have h256 := baseNum_step 256 8 h h512 (by decide)
  have h128 := baseNum_step 128 16 h h256 (by decide)
  have h64 := baseNum_step 64 32 h h128 (by decide)
  have h32 := baseNum_step 32 64 h h64 (by decide)
  unfold getBatchNum
  apply max_le_max (le_refl 4)
  apply min_le_min
  · exact max_le_max (le_refl 1) hquotient
  · exact h32.1

/-- **The batches** are as their comments say up to 1024 bytes, and for no larger size. -/
theorem batchRight_iff {size : Nat} (h : 1 ≤ size) : BatchRight size ↔ size ≤ 1024 := by
  constructor
  · intro hright
    by_contra hlarge
    -- the comments say one block, and there are four
    have hone : getBatchNum size = 1 := hright.single (Nat.lt_of_not_le hlarge)
    have hfour : getBatchNum size = 4 := getBatchNum_of_lt (by omega)
    omega
  · intro hsmall
    have hbytes := getBatchNum_mul_le size
    refine ⟨Nat.le_of_lt (lt_getBatchNum size), ?_, ?_, ?_⟩
    · omega
    · exact fun larger => getBatchNum_antitone h
    · exact fun hlarge => absurd hsmall (Nat.not_le_of_lt hlarge)

/-- The largest size whose batches are right. -/
theorem batchRight_1024 : BatchRight 1024 := (batchRight_iff (by decide)).mpr (by decide)

/-- The next size class: four blocks, which are more than 4KB. -/
theorem not_batchRight_1032 :
    blockSize 128 = 1032 ∧ getBatchNum 1032 = 4 ∧ 4 * 1032 > max 4096 1032 ∧
      ¬BatchRight 1032 :=
  ⟨rfl, rfl, by decide, fun h => absurd (h.single (by decide)) (by decide)⟩

end ThreadCache

end RainWebServer.Memory
