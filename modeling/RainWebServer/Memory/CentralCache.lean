import RainWebServer.Lib.Chain
import RainWebServer.Memory.PageCache

/-!
# CentralCache: Batches, Spans and Returned Lists

Embeds `include/memory/CentralCache.h` and `src/memory/CentralCache.cpp`.

`fetchRange` and `returnRange` work on the words of the blocks: they follow links, cut and
splice lists and cut a span into blocks. What they do between taking and clearing the lock of
a size class is a function of the memory here; the locks themselves and the order of the
threads are the machine's.

## Main results

- `takeBatch_spec` : a batch from a list that has blocks
- `carveSpan_spec` : a batch and the rest of a span
- `spliceRange_spec` : a returned list in front of the central one
-/

namespace RainWebServer.Memory

open RainWebServer.Lib SizeClass

/-! ## §1 Model -/

def SPAN_PAGES : Nat := 8

/-- The members of `CentralCache`. -/
structure CentralCache where
  centralFreeList_ : Nat → Addr
  locks_ : Nat → Bool

namespace CentralCache

/-- The constructor. -/
def new : CentralCache := ⟨fun _ => 0, fun _ => false⟩

/-- `while (current && count < batchNum)` of `fetchRange`, with the iterations that `count`
    leaves: where it ends, and the last block it passed. -/
def passBlocks (mem : Words) : Nat → Addr → Addr → Addr × Addr
  | 0, current, prev => (current, prev)
  | n + 1, current, prev =>
    if current = 0 then (current, prev) else passBlocks mem n (mem current) current

/-- The branch of `fetchRange` for a list that has blocks: cut `batchNum` of them off. Gives
    the memory and what is stored in `centralFreeList_`. -/
def takeBatch (mem : Words) (result batchNum : Nat) : Words × Addr :=
  let (current, prev) := passBlocks mem batchNum result 0
  (if prev ≠ 0 then Function.update mem prev 0 else mem, current)

/-- `for (i = first; i < first + n; ++i)`: link the block before the `i`-th to the `i`-th. -/
def linkBlocks (start size : Nat) : Nat → Nat → Words → Words
  | _, 0, mem => mem
  | i, n + 1, mem =>
    linkBlocks start size (i + 1) n
      (Function.update mem (start + (i - 1) * size) (start + i * size))

/-- The branch of `fetchRange` for a new span: link the first blocks for the thread and the
    remaining ones for `centralFreeList_`. Gives the memory and what is stored there, if
    anything is. -/
def carveSpan (mem : Words) (start size batchNum : Nat) : Words × Option Addr :=
  let totalBlocks := SPAN_PAGES * PAGE_SIZE / size
  let allocBlocks := min batchNum totalBlocks
  let mem :=
    if allocBlocks > 1 then
      Function.update (linkBlocks start size 1 (allocBlocks - 1) mem)
        (start + (allocBlocks - 1) * size) 0
    else mem
  if totalBlocks > allocBlocks then
    (Function.update (linkBlocks start size (allocBlocks + 1) (totalBlocks - (allocBlocks + 1)) mem)
      (start + (totalBlocks - 1) * size) 0, some (start + allocBlocks * size))
  else (mem, none)

/-- The pages that `fetchFromPageCache` asks for. -/
def spanPages (size : Nat) : Nat :=
  if size ≤ SPAN_PAGES * PAGE_SIZE then SPAN_PAGES else (size + PAGE_SIZE - 1) / PAGE_SIZE

/-- `fetchFromPageCache`. -/
def fetchFromPageCache (mem : Words) (pageCache : PageCache) (size : Nat) (mmap : Option Addr) :
    Option (Words × PageCache × Option Addr) :=
  PageCache.allocateSpan mem pageCache (spanPages size) mmap

/-- `while (*end != nullptr && count < size)` of `returnRange`, with the iterations that
    `count` leaves. -/
def findEnd (mem : Words) : Nat → Addr → Addr
  | 0, last => last
  | n + 1, last => if mem last = 0 then last else findEnd mem n (mem last)

/-- The locked part of `returnRange`: the memory after the list at `start` was linked in front
    of the central one, whose head is `current`. The count starts at 1. -/
def spliceRange (mem : Words) (start size current : Nat) : Words :=
  Function.update mem (findEnd mem (size - 1) start) current

/-! ## §2 A batch from the central list -/

/-- The loop stops after at most `n` blocks of the list, behind the last one it passed. -/
theorem passBlocks_spec {mem : Words} {n : Nat} {h : Addr} (prev : Addr) {l : List Addr}
    (hchain : Chain mem 0 h l) (hne : l ≠ []) (hn : 0 < n) :
    ∃ l₁ a l₂, l = l₁ ++ a :: l₂ ∧ l₁.length + 1 = min n l.length ∧
      passBlocks mem n h prev = (mem a, a) := by
  induction n generalizing h prev l with
  | zero => exact absurd hn (Nat.lt_irrefl 0)
  | succ n ih =>
    cases l with
    | nil => exact absurd rfl hne
    | cons a l =>
      obtain ⟨rfl, ha, hrest⟩ := hchain
      rw [passBlocks, if_neg ha]
      -- the next block, if there is one and the count allows it
      cases l with
      | nil =>
        refine ⟨[], h, [], rfl, by simp, ?_⟩
        have hend : mem h = 0 := hrest
        cases n with
        | zero => rfl
        | succ n => rw [passBlocks, if_pos hend]
      | cons b l =>
        rcases Nat.eq_zero_or_pos n with rfl | hpos
        · exact ⟨[], h, b :: l, rfl, by simp, rfl⟩
        · obtain ⟨l₁, c, l₂, hl, hlength, heq⟩ := ih h hrest (List.cons_ne_nil b l) hpos
          refine ⟨h :: l₁, c, l₂, by rw [hl]; rfl, ?_, heq⟩
          simp only [List.length_cons] at hlength ⊢
          omega

/-- **A batch from a list that has blocks.** The first `batchNum` blocks, or all of them, are
    cut off; only a link between blocks of the list is written. -/
theorem takeBatch_spec {mem : Words} {result batchNum : Nat} {l : List Addr}
    (hchain : Chain mem 0 result l) (hne : l ≠ []) (hn : 0 < batchNum) :
    ∃ l₁ l₂, l = l₁ ++ l₂ ∧ l₁.length = min batchNum l.length ∧
      Chain (takeBatch mem result batchNum).1 0 result l₁ ∧
      Chain (takeBatch mem result batchNum).1 0 (takeBatch mem result batchNum).2 l₂ ∧
      ∀ a, a ∉ l → (takeBatch mem result batchNum).1 a = mem a := by
  obtain ⟨l₁, a, l₂, hl, hlength, heq⟩ := passBlocks_spec 0 hchain hne hn
  have ha : a ≠ 0 := Segment.ne_null hchain (by rw [hl]; simp)
  have htake : takeBatch mem result batchNum = (Function.update mem a 0, mem a) := by
    simp only [takeBatch, heq, if_pos ha]
  rw [hl] at hchain
  obtain ⟨hbatch, hrest⟩ := hchain.cut
  rw [htake]
  refine ⟨l₁ ++ [a], l₂, by simp [hl], by simpa using hlength, hbatch, hrest, ?_⟩
  intro b hb
  apply Function.update_of_ne
  rintro rfl
  apply hb
  rw [hl]
  simp

/-! ## §3 A new span -/

/-- The addresses of the blocks `i, .., i + n - 1` of a span. -/
def blocks (start size i n : Nat) : List Addr :=
  (List.range' i n).map (fun k => start + k * size)

theorem mem_blocks {start size i n a : Nat} :
    a ∈ blocks start size i n ↔ ∃ k, i ≤ k ∧ k < i + n ∧ a = start + k * size := by
  simp only [blocks, List.mem_map, List.mem_range'_1]
  constructor
  · rintro ⟨k, ⟨hlo, hhi⟩, rfl⟩
    exact ⟨k, hlo, hhi, rfl⟩
  · rintro ⟨k, hlo, hhi, rfl⟩
    exact ⟨k, ⟨hlo, hhi⟩, rfl⟩

theorem blocks_succ (start size i n : Nat) :
    blocks start size i (n + 1) = (start + i * size) :: blocks start size (i + 1) n := rfl

/-- The first block of a span starts where the span does. -/
theorem blocks_zero_succ (start size n : Nat) :
    blocks start size 0 (n + 1) = start :: blocks start size 1 n := by
  rw [blocks_succ, Nat.zero_mul, Nat.add_zero, Nat.zero_add]

theorem blocks_concat (start size i n : Nat) :
    blocks start size i (n + 1) = blocks start size i n ++ [start + (i + n) * size] := by
  simp [blocks, List.range'_1_concat]

/-- Different blocks of a span have different addresses. -/
theorem block_inj {start size k j : Nat} (hsize : 0 < size)
    (h : start + k * size = start + j * size) : k = j :=
  Nat.eq_of_mul_eq_mul_right hsize (Nat.add_left_cancel h)

theorem blocks_append (start size i m n : Nat) :
    blocks start size i (m + n) = blocks start size i m ++ blocks start size (i + m) n := by
  simp [blocks, ← List.map_append, List.range'_append_1]

/-- A span has no block twice. -/
theorem blocks_nodup {start size : Nat} (hsize : 0 < size) (i n : Nat) :
    (blocks start size i n).Nodup := by
  apply List.Nodup.map _ List.nodup_range'
  intro k j h
  exact block_inj hsize h

theorem block_ne_zero {start : Addr} (hstart : start ≠ 0) (k size : Nat) :
    start + k * size ≠ 0 :=
  Nat.ne_of_gt (Nat.add_pos_left (Nat.pos_of_ne_zero hstart) _)

/-- The loop writes only the blocks that it links. -/
theorem linkBlocks_of_not_mem {start size i n : Nat} {mem : Words} {a : Addr}
    (ha : a ∉ blocks start size i n) : linkBlocks start size (i + 1) n mem a = mem a := by
  induction n generalizing i mem with
  | zero => rfl
  | succ n ih =>
    rw [blocks_succ, List.mem_cons, not_or] at ha
    rw [linkBlocks, ih ha.2, Nat.add_sub_cancel]
    exact Function.update_of_ne ha.1 _ _

/-- The memory after the loop. -/
theorem linkBlocks_apply {start size i n : Nat} {mem : Words} {a : Addr}
    (ha : a ∈ blocks start size i n) : linkBlocks start size (i + 1) n mem a = a + size := by
  induction n generalizing i mem with
  | zero => cases ha
  | succ n ih =>
    rw [linkBlocks, Nat.add_sub_cancel]
    rcases Classical.em (a ∈ blocks start size (i + 1) n) with hmem | hmem
    · exact ih hmem
    · rw [blocks_succ] at ha
      obtain rfl := (List.mem_cons.mp ha).resolve_right hmem
      rw [linkBlocks_of_not_mem hmem, Function.update_self, Nat.succ_mul, Nat.add_assoc]

/-- The loop links the blocks `i, .., i + n - 1`, each one to the next. -/
theorem linkBlocks_segment {start size i n : Nat} (mem : Words) (hstart : start ≠ 0)
    (hsize : 0 < size) :
    Segment (linkBlocks start size (i + 1) n mem) 0 (start + i * size) (blocks start size i n)
      (start + (i + n) * size) := by
  induction n generalizing i mem with
  | zero => rfl
  | succ n ih =>
    -- the first link is not written again
    have hfirst : start + i * size ∉ blocks start size (i + 1) n := by
      intro hmem
      obtain ⟨k, hlo, -, heq⟩ := mem_blocks.mp hmem
      have hk := block_inj hsize heq
      omega
    rw [blocks_succ, linkBlocks, Nat.add_sub_cancel]
    refine ⟨rfl, block_ne_zero hstart i size, ?_⟩
    rw [linkBlocks_of_not_mem hfirst, Function.update_self]
    have hrest := ih (i := i + 1) (Function.update mem (start + i * size) (start + (i + 1) * size))
    rwa [show i + 1 + n = i + (n + 1) by omega] at hrest

/-- The loop and the null written behind it make a chain of the blocks `i, .., i + n`. -/
theorem linkBlocks_chain {start size i n : Nat} (mem : Words) (hstart : start ≠ 0)
    (hsize : 0 < size) :
    Chain (Function.update (linkBlocks start size (i + 1) n mem) (start + (i + n) * size) 0) 0
      (start + i * size) (blocks start size i (n + 1)) := by
  have hlast : start + (i + n) * size ∉ blocks start size i n := by
    intro hmem
    obtain ⟨k, -, hhi, heq⟩ := mem_blocks.mp hmem
    have hk := block_inj hsize heq
    omega
  rw [blocks_concat]
  apply Segment.update_last (t := linkBlocks start size (i + 1) n mem (start + (i + n) * size))
  · exact segment_append.mpr ⟨_, linkBlocks_segment mem hstart hsize, rfl,
      block_ne_zero hstart _ size, rfl⟩
  · exact hlast

/-- Neither the loop nor the null behind it writes outside of the blocks `i, .., i + n`. -/
theorem linkBlocks_update_of_not_mem {start size i n : Nat} (mem : Words) {a : Addr}
    (ha : a ∉ blocks start size i (n + 1)) :
    Function.update (linkBlocks start size (i + 1) n mem) (start + (i + n) * size) 0 a =
      mem a := by
  rw [blocks_concat, List.mem_append, List.mem_singleton, not_or] at ha
  rw [Function.update_of_ne ha.2, linkBlocks_of_not_mem ha.1]

/-- How many blocks of a size are cut from a span; one that is larger than the usual span has a
    span of its own. -/
def blockCount (size : Nat) : Nat := max 1 (SPAN_PAGES * PAGE_SIZE / size)

/-- The blocks that are cut from a span fit into its pages. -/
theorem blockCount_mul_le {size : Nat} (hsize : 0 < size) :
    blockCount size * size ≤ spanPages size * PAGE_SIZE := by
  unfold blockCount spanPages
  rcases Nat.lt_or_ge (SPAN_PAGES * PAGE_SIZE) size with hlt | hle
  · rw [Nat.div_eq_of_lt hlt, if_neg (Nat.not_le.mpr hlt), Nat.max_eq_left (Nat.zero_le 1)]
    unfold PAGE_SIZE
    omega
  · have hpos : 1 ≤ SPAN_PAGES * PAGE_SIZE / size := Nat.div_pos hle hsize
    rw [if_pos hle, Nat.max_eq_right hpos]
    exact Nat.div_mul_le_self _ _

/-- The classes of the pool ask for so few pages that their byte count does not wrap. -/
theorem sizeOfPages_spanPages {index : Nat} (hindex : index < FREE_LIST_SIZE) :
    sizeOfPages (spanPages (blockSize index)) = spanPages (blockSize index) * PAGE_SIZE := by
  apply sizeOfPages_of_lt
  have hsize : blockSize index ≤ MAX_BYTES := by
    unfold blockSize FREE_LIST_SIZE MAX_BYTES ALIGNMENT at *
    omega
  unfold spanPages
  split
  · decide
  · unfold PAGE_SIZE MAX_BYTES at *
    omega

theorem start_mem_blocks (start size : Nat) : start ∈ blocks start size 0 (blockCount size) := by
  obtain ⟨n, hn⟩ : ∃ n, blockCount size = n + 1 :=
    Nat.exists_eq_add_of_le' (Nat.le_max_left 1 _)
  rw [hn, blocks_zero_succ]
  exact List.mem_cons_self

/-- The blocks of a span start in the span. -/
theorem mem_span {start size a : Nat} (hsize : 0 < size)
    (ha : a ∈ blocks start size 0 (blockCount size)) :
    start ≤ a ∧ a < start + spanPages size * PAGE_SIZE := by
  obtain ⟨k, -, hk, rfl⟩ := mem_blocks.mp ha
  have hfit := blockCount_mul_le hsize
  have hle : (k + 1) * size ≤ blockCount size * size := Nat.mul_le_mul_right _ (by omega)
  rw [Nat.succ_mul] at hle
  omega

/-- **A new span.** It is cut into a list for the thread, which starts with the first block, and
    a list for `centralFreeList_`; only links in blocks of the span are written. A span of one
    block is not written at all: its list ends because the first word of the span is zero. -/
theorem carveSpan_spec {mem : Words} {start size batchNum : Nat} (hstart : start ≠ 0)
    (hsize : 0 < size) (hbatch : 1 < batchNum) (hzero : mem start = 0) :
    ∃ l₁ l₂, start :: l₁ ++ l₂ = blocks start size 0 (blockCount size) ∧
      l₁.length + 1 = max 1 (min batchNum (SPAN_PAGES * PAGE_SIZE / size)) ∧
      Chain (carveSpan mem start size batchNum).1 0 start (start :: l₁) ∧
      (∀ remainStart, (carveSpan mem start size batchNum).2 = some remainStart →
        Chain (carveSpan mem start size batchNum).1 0 remainStart l₂) ∧
      ((carveSpan mem start size batchNum).2 = none → l₂ = []) ∧
      ∀ a, a ∉ blocks start size 0 (blockCount size) →
        (carveSpan mem start size batchNum).1 a = mem a := by
  unfold carveSpan blockCount
  generalize SPAN_PAGES * PAGE_SIZE / size = totalBlocks
  rcases Nat.lt_or_ge 1 totalBlocks with htotal | htotal
  · -- at least two blocks: both loops run
    obtain ⟨n, hn⟩ : ∃ n, min batchNum totalBlocks = n + 2 :=
      Nat.exists_eq_add_of_le' (Nat.le_min.mpr ⟨hbatch, htotal⟩)
    have hmax : max 1 totalBlocks = totalBlocks := Nat.max_eq_right (Nat.le_of_lt htotal)
    simp only [hn, hmax, gt_iff_lt, show (1 < n + 2) = True by simp, if_true]
    generalize hmem' : Function.update (linkBlocks start size 1 (n + 2 - 1) mem)
      (start + (n + 2 - 1) * size) 0 = mem'
    have hfirst : Chain mem' 0 start (blocks start size 0 (n + 2)) := by
      have hchain := linkBlocks_chain (i := 0) (n := n + 1) mem hstart hsize
      simpa [← hmem'] using hchain
    have hframe : ∀ a, a ∉ blocks start size 0 (n + 2) → mem' a = mem a := by
      intro a ha
      have hsame := linkBlocks_update_of_not_mem (n := n + 1) mem ha
      simpa [← hmem'] using hsame
    rcases Nat.lt_or_ge (n + 2) totalBlocks with hmore | hall
    · obtain ⟨m, rfl⟩ : ∃ m, totalBlocks = n + 2 + (m + 1) :=
        ⟨totalBlocks - (n + 3), by omega⟩
      have hcount : n + 2 + (m + 1) - (n + 2 + 1) = m := by omega
      have hlast : n + 2 + (m + 1) - 1 = n + 2 + m := by omega
      rw [if_pos hmore, hcount, hlast]
      rw [blocks_append, Nat.zero_add]
      -- the second loop writes behind the blocks of the first
      have hapart : ∀ a ∈ blocks start size 0 (n + 2), a ∉ blocks start size (n + 2) (m + 1) := by
        intro a ha ha'
        obtain ⟨k, -, hk, rfl⟩ := mem_blocks.mp ha
        obtain ⟨j, hj, -, heq⟩ := mem_blocks.mp ha'
        have hkj := block_inj hsize heq
        omega
      refine ⟨blocks start size 1 (n + 1), blocks start size (n + 2) (m + 1),
        ?_, ?_, ?_, ?_, ?_, ?_⟩
      · rw [blocks_zero_succ]
      · simp [blocks]
      · rw [← blocks_zero_succ]
        apply hfirst.congr
        intro a ha
        exact linkBlocks_update_of_not_mem mem' (hapart a ha)
      · intro remainStart hremain
        cases hremain
        exact linkBlocks_chain mem' hstart hsize
      · intro hnone
        cases hnone
      · intro a ha
        rw [List.mem_append, not_or] at ha
        exact (linkBlocks_update_of_not_mem mem' ha.2).trans (hframe a ha.1)
    · obtain rfl : totalBlocks = n + 2 := by omega
      rw [if_neg (Nat.lt_irrefl _)]
      refine ⟨blocks start size 1 (n + 1), [], ?_, ?_, ?_, by simp, by simp, hframe⟩
      · rw [blocks_zero_succ, List.append_nil]
      · simp [blocks]
      · rw [← blocks_zero_succ]
        exact hfirst
  · have hmin : min batchNum totalBlocks = totalBlocks := Nat.min_eq_right (by omega)
    have hmax : max 1 totalBlocks = 0 + 1 := Nat.max_eq_left htotal
    simp only [hmin, hmax, blocks_zero_succ, gt_iff_lt, Nat.lt_irrefl, Nat.not_lt.mpr htotal,
      if_false]
    exact ⟨[], [], rfl, rfl, ⟨rfl, hstart, hzero⟩, by simp, by simp, by simp⟩

/-! ## §4 A returned list -/

/-- The loop stops at a block of the list. -/
theorem findEnd_spec {mem : Words} {n : Nat} {h : Addr} {l : List Addr}
    (hchain : Chain mem 0 h l) (hne : l ≠ []) :
    ∃ l₁ l₂, l = l₁ ++ findEnd mem n h :: l₂ ∧ l₁.length = min n (l.length - 1) := by
  induction n generalizing h l with
  | zero =>
    obtain ⟨rest, rfl, -⟩ := hchain.exists_cons (by rintro rfl; exact hne (hchain.unique rfl))
    exact ⟨[], rest, rfl, by simp⟩
  | succ n ih =>
    cases l with
    | nil => exact absurd rfl hne
    | cons a l =>
      obtain ⟨rfl, -, hrest⟩ := hchain
      cases l with
      | nil =>
        have hend : mem h = 0 := hrest
        rw [findEnd, if_pos hend]
        exact ⟨[], [], rfl, by simp⟩
      | cons b l =>
        have hb : mem h ≠ 0 := hrest.1 ▸ hrest.2.1
        rw [findEnd, if_neg hb]
        obtain ⟨l₁, l₂, hl, hlength⟩ := ih hrest (List.cons_ne_nil b l)
        refine ⟨h :: l₁, l₂, by rw [hl]; rfl, ?_⟩
        simp only [List.length_cons] at hlength ⊢
        omega

/-- **A returned list.** Its blocks up to the one where the search stopped are linked in front
    of the central list; the blocks behind it, if there are any, are on no list any more. -/
theorem spliceRange_spec {mem : Words} {start current : Nat} (size : Nat) {l lc : List Addr}
    (hchain : Chain mem 0 start l) (hne : l ≠ []) (hcentral : Chain mem 0 current lc)
    (hdisjoint : ∀ a ∈ l, a ∉ lc) :
    ∃ l₁ l₂, l = l₁ ++ l₂ ∧ l₁.length = min (size - 1) (l.length - 1) + 1 ∧
      Chain (spliceRange mem start size current) 0 start (l₁ ++ lc) ∧
      ∀ a, a ∉ l → spliceRange mem start size current a = mem a := by
  obtain ⟨l₁, l₂, hl, hlength⟩ := findEnd_spec (n := size - 1) hchain hne
  have hmem : findEnd mem (size - 1) start ∈ l := by
    rw [hl]
    simp
  refine ⟨l₁ ++ [findEnd mem (size - 1) start], l₂, by simp [← hl], by simp [hlength], ?_, ?_⟩
  · rw [hl] at hchain
    exact hchain.splice hcentral (hdisjoint _ hmem)
  · intro a ha
    apply Function.update_of_ne
    rintro rfl
    exact ha hmem

end CentralCache

end RainWebServer.Memory
