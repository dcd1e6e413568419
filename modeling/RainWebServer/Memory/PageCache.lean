import Mathlib.Algebra.Group.Nat.Defs
import Mathlib.Data.List.AList
import Mathlib.Logic.Function.Basic
import RainWebServer.Lib.Layout

/-!
# SizeClass and PageCache: Sizes, Memory and Spans

Embeds `include/memory/Common.h`, `include/memory/PageCache.h` and `src/memory/PageCache.cpp`.

An address is a number, 0 is `nullptr`. The memory gives the pointer-sized word that starts at
an address; all words that the pool reads and writes start at multiples of `ALIGNMENT`, so they
do not overlap. `mmap` is the environment: what it returned is an argument of `allocateSpan`,
and `mmapReturns` is what is assumed about it.

A `Span` object is named by a number, 0 is the null `Span *`; `new Span` takes the next number.
The dereference of a null or deleted `Span *` is a fault.

`numPages * PAGE_SIZE` is a product of two `size_t` and wraps around from `2 ^ 52` pages on. The
system is then asked for fewer bytes, while the `Span` still gets `numPages`; `mmapped` has the
pages that the system was really asked for.

## Main results

- `sizeOfPages_of_lt`, `addrBehind_of_lt` : where the product of a page count does not wrap
- `SizeClass.le_blockSize` : a block of its size class is large enough for a request
- `allocateSpan_of_freeSpans_nil` : without free spans a span comes from the system
-/

namespace RainWebServer.Memory

open RainWebServer.Lib

/-! ## §1 Sizes -/

/-- An address; 0 is `nullptr`. -/
abbrev Addr := Nat

/-- The pointer-sized word that starts at an address. -/
abbrev Words := Addr → Addr

def ALIGNMENT : Nat := 8
def MAX_BYTES : Nat := 256 * 1024
def FREE_LIST_SIZE : Nat := MAX_BYTES / ALIGNMENT
def PAGE_SIZE : Nat := 4096

/-- A `size_t` counter wraps around. -/
def sizeT (n : Nat) : Nat := n % 2 ^ 64

/-- `numPages * PAGE_SIZE` in `size_t`. -/
def sizeOfPages (numPages : Nat) : Nat := sizeT (numPages * PAGE_SIZE)

theorem sizeOfPages_of_lt {numPages : Nat} (h : numPages < 2 ^ 52) :
    sizeOfPages numPages = numPages * PAGE_SIZE :=
  Nat.mod_eq_of_lt (by unfold PAGE_SIZE; omega)

/-- The wrapped product is still a number of whole pages. -/
theorem sizeOfPages_div_mul (numPages : Nat) :
    sizeOfPages numPages / PAGE_SIZE * PAGE_SIZE = sizeOfPages numPages := by
  unfold sizeOfPages sizeT PAGE_SIZE
  omega

/-- `static_cast<char *>(addr) + numPages * PAGE_SIZE`. -/
def addrBehind (addr : Addr) (numPages : Nat) : Addr := sizeT (addr + sizeOfPages numPages)

/-- Pages that end in the address space are fewer than `2 ^ 52`. -/
theorem numPages_lt {addr numPages : Nat} (h : addr + numPages * PAGE_SIZE < 2 ^ 64) :
    numPages < 2 ^ 52 := by
  unfold PAGE_SIZE at h
  omega

/-- Nothing wraps for pages that end in the address space. -/
theorem addrBehind_of_lt {addr numPages : Nat} (h : addr + numPages * PAGE_SIZE < 2 ^ 64) :
    addrBehind addr numPages = addr + numPages * PAGE_SIZE := by
  rw [addrBehind, sizeOfPages_of_lt (numPages_lt h)]
  exact Nat.mod_eq_of_lt h

namespace SizeClass

/-- `roundUp`: the mask is the complement of `ALIGNMENT - 1` in 64 bits. -/
def roundUp (bytes : Nat) : Nat := (bytes + ALIGNMENT - 1) &&& (2 ^ 64 - 1 - (ALIGNMENT - 1))

/-- `getIndex`. -/
def getIndex (bytes : Nat) : Nat := (max bytes ALIGNMENT + ALIGNMENT - 1) / ALIGNMENT - 1

/-- The size of the blocks of a size class, `(index + 1) * ALIGNMENT`. -/
def blockSize (index : Nat) : Nat := (index + 1) * ALIGNMENT

theorem blockSize_pos (index : Nat) : 0 < blockSize index :=
  Nat.mul_pos (Nat.succ_pos index) (by decide)

/-- A block of its size class is large enough for a request. -/
theorem le_blockSize (bytes : Nat) : bytes ≤ blockSize (getIndex bytes) := by
  unfold blockSize getIndex ALIGNMENT
  omega

/-- The sizes that the pool serves have an index in its arrays. -/
theorem getIndex_lt {bytes : Nat} (h : bytes ≤ MAX_BYTES) : getIndex bytes < FREE_LIST_SIZE := by
  unfold getIndex FREE_LIST_SIZE MAX_BYTES ALIGNMENT at *
  omega

/-- A request of no bytes is served as one of `ALIGNMENT` bytes, which has the same class. -/
theorem getIndex_request (size : Nat) :
    getIndex (if size = 0 then ALIGNMENT else size) = getIndex size ∧
      size ≤ if size = 0 then ALIGNMENT else size := by
  split
  · rename_i hzero
    rw [hzero]
    exact ⟨rfl, Nat.zero_le _⟩
  · exact ⟨rfl, Nat.le_refl _⟩

end SizeClass

/-! ## §2 The page cache -/

/-- The members of `PageCache::Span`; `next` names another `Span`. -/
structure Span where
  pageAddr : Addr
  numPages : Nat
  next : Nat
  deriving DecidableEq, Repr

/-- The members of `PageCache` with the `Span` objects that exist. -/
structure PageCache where
  /-- The `Span` objects; `none` before `new` and after `delete`. -/
  spans : Nat → Option Span
  /-- How many `Span` objects were made. -/
  made : Nat
  /-- A key may be present with a null list head. -/
  freeSpans_ : AList (fun _ : Nat => Nat)
  spanMap_ : Addr → Option Nat
  /-- The regions obtained from `mmap`: address and number of pages that were mapped. -/
  mmapped : List (Addr × Nat)

/-- The regions of the spans, in bytes. -/
def regions (mmapped : List (Addr × Nat)) : List (Nat × Nat) :=
  mmapped.map (fun r => (r.1, r.2 * PAGE_SIZE))

/-- What is assumed about `mmap` for the bytes of `numPages` pages: it fails, as it does for 0
    bytes, or the region is page-aligned, not at address 0 and apart from every region it returned
    before. -/
def mmapReturns (mmapped : List (Addr × Nat)) (numPages : Nat) : Option Addr → Bool
  | none => true
  | some ptr =>
    decide (sizeOfPages numPages ≠ 0) && decide (ptr ≠ 0) && decide (ptr % PAGE_SIZE = 0) &&
      mmapped.all (fun r => decide (Apart ptr (sizeOfPages numPages) r.1 (r.2 * PAGE_SIZE)))

/-- A region of the system does not start at null. -/
theorem ne_zero_of_mmap {mmapped : List (Addr × Nat)} {numPages memory : Nat}
    (hmmap : mmapReturns mmapped numPages (some memory) = true) : memory ≠ 0 := by
  simp only [mmapReturns, Bool.and_eq_true, decide_eq_true_eq] at hmmap
  exact hmmap.1.1.2

/-- What `mmap` returns is apart from every region that it returned before. -/
theorem apart_of_mmap {mmapped : List (Addr × Nat)} {numPages memory : Nat}
    (hmmap : mmapReturns mmapped numPages (some memory) = true) :
    ∀ r ∈ regions mmapped, Apart memory (sizeOfPages numPages) r.1 r.2 := by
  simp only [mmapReturns, Bool.and_eq_true, decide_eq_true_eq, List.all_eq_true] at hmmap
  intro r hr
  obtain ⟨r', hr', rfl⟩ := List.mem_map.mp hr
  exact hmmap.2 r' hr'

/-- `memset(ptr, 0, size)`. -/
def memsetZero (mem : Words) (ptr size : Nat) : Words :=
  fun a => if ptr ≤ a ∧ a < ptr + size then 0 else mem a

/-- `systemAlloc`, for the given outcome of `mmap`. -/
def systemAlloc (mem : Words) (numPages : Nat) (mmap : Option Addr) : Words × Option Addr :=
  match mmap with
  | none => (mem, none)
  | some ptr => (memsetZero mem ptr (sizeOfPages numPages), some ptr)

/-- `lower_bound`: the entry of the least key that is not less than `n`. -/
def lowerBound (m : AList (fun _ : Nat => Nat)) (n : Nat) : Option (Nat × Nat) :=
  (m.keys.filter (fun k => n ≤ k)).min?.bind (fun k => (m.lookup k).map (fun head => (k, head)))

namespace PageCache

/-- The constructor. -/
def new : PageCache := ⟨fun _ => none, 0, ∅, fun _ => none, []⟩

/-- The head of the free list of `k` pages; null if there is no key `k`. -/
def head (pageCache : PageCache) (k : Nat) : Nat := (pageCache.freeSpans_.lookup k).getD 0

/-- `new Span` with the given members; its name is `made + 1`. -/
def newSpan (pageCache : PageCache) (span : Span) : PageCache :=
  { pageCache with
    spans := Function.update pageCache.spans (pageCache.made + 1) (some span)
    made := pageCache.made + 1 }

/-- Put the pages of `span` beyond the first `numPages` at the head of their free list. -/
def splitSpan (pageCache : PageCache) (id : Nat) (span : Span) (numPages : Nat) : PageCache :=
  let remaining := span.numPages - numPages
  let list := pageCache.head remaining
  let newId := pageCache.made + 1
  let pageCache := pageCache.newSpan
    ⟨addrBehind span.pageAddr numPages, remaining, list⟩
  { pageCache with
    freeSpans_ := pageCache.freeSpans_.insert remaining newId
    spans := Function.update pageCache.spans id (some { span with numPages := numPages }) }

/-- The branch of `allocateSpan` that reuses the head `id` of the free list `key`. -/
def takeFreeSpan (pageCache : PageCache) (key id numPages : Nat) : Option (PageCache × Addr) :=
  if id = 0 then none
  else
    (pageCache.spans id).map fun span =>
      let freeSpans :=
        if span.next ≠ 0 then pageCache.freeSpans_.insert key span.next
        else pageCache.freeSpans_.erase key
      let pageCache := { pageCache with freeSpans_ := freeSpans }
      let pageCache :=
        if span.numPages > numPages then pageCache.splitSpan id span numPages else pageCache
      ({ pageCache with spanMap_ := Function.update pageCache.spanMap_ span.pageAddr (some id) },
        span.pageAddr)

/-- The branch of `allocateSpan` that records the region `memory` obtained from the system: the
    `Span` has the pages asked for, and `mmapped` those that were mapped. -/
def recordSpan (pageCache : PageCache) (memory numPages : Nat) : PageCache :=
  let id := pageCache.made + 1
  let pageCache := pageCache.newSpan ⟨memory, numPages, 0⟩
  { pageCache with
    spanMap_ := Function.update pageCache.spanMap_ memory (some id)
    mmapped := (memory, sizeOfPages numPages / PAGE_SIZE) :: pageCache.mmapped }

/-- `allocateSpan`; `mmap` is what the system returns if it is asked. -/
def allocateSpan (mem : Words) (pageCache : PageCache) (numPages : Nat) (mmap : Option Addr) :
    Option (Words × PageCache × Option Addr) :=
  match lowerBound pageCache.freeSpans_ numPages with
  | some (key, head) =>
    (pageCache.takeFreeSpan key head numPages).map fun result =>
      (mem, result.1, some result.2)
  | none =>
    match systemAlloc mem numPages mmap with
    | (mem, none) => some (mem, pageCache, none)
    | (mem, some memory) => some (mem, pageCache.recordSpan memory numPages, some memory)

/-- Without free spans a span comes from the system. -/
theorem allocateSpan_of_freeSpans_nil (mem : Words) {pageCache : PageCache} (numPages : Nat)
    (mmap : Option Addr) (h : pageCache.freeSpans_ = ∅) :
    allocateSpan mem pageCache numPages mmap =
      match mmap with
      | none => some (mem, pageCache, none)
      | some memory =>
        some (memsetZero mem memory (sizeOfPages numPages), pageCache.recordSpan memory numPages,
          some memory) := by
  have hnone : lowerBound pageCache.freeSpans_ numPages = none := by
    rw [h]
    rfl
  rw [allocateSpan, hnone]
  cases mmap <;> rfl

/-! ## §3 Freeing a span -/

/-- The search of `deallocateSpan` for `nextId` behind the head of its list, with at most `fuel`
    iterations: the objects after it, and whether it was found. -/
def unlinkNext (nextId nextNext : Nat) (spans : Nat → Option Span) :
    Nat → Nat → Option ((Nat → Option Span) × Bool)
  | 0, _ => none
  | fuel + 1, prev =>
    match spans prev with
    | none => none
    | some span =>
      if span.next = 0 then some (spans, false)
      else if span.next = nextId then
        some (Function.update spans prev (some { span with next := nextNext }), true)
      else unlinkNext nextId nextNext spans fuel span.next

/-- `span` takes the pages of the span behind it, whose object is deleted. -/
def absorbNext (pageCache : PageCache) (id nextAddr nextId : Nat) (nextSpan : Span) :
    Option PageCache :=
  (pageCache.spans id).map fun span =>
    { pageCache with
      spans := Function.update (Function.update pageCache.spans id
        (some { span with numPages := sizeT (span.numPages + nextSpan.numPages) })) nextId none
      spanMap_ := Function.update pageCache.spanMap_ nextAddr none }

/-- The attempt of `deallocateSpan` to merge with the span registered behind it. The access
    `freeSpans_[nextSpan->numPages]` makes the key, with a null head, if it is not there. -/
def mergeNext (pageCache : PageCache) (id nextAddr nextId : Nat) : Option PageCache :=
  (pageCache.spans nextId).bind fun nextSpan =>
    let nextList := pageCache.head nextSpan.numPages
    let pageCache := { pageCache with
      freeSpans_ := pageCache.freeSpans_.insert nextSpan.numPages nextList }
    if nextList = nextId then
      { pageCache with
        freeSpans_ := pageCache.freeSpans_.insert nextSpan.numPages nextSpan.next }.absorbNext
          id nextAddr nextId nextSpan
    else if nextList ≠ 0 then
      (unlinkNext nextId nextSpan.next pageCache.spans (pageCache.made + 1) nextList).bind
        fun result =>
          let pageCache := { pageCache with spans := result.1 }
          if result.2 then pageCache.absorbNext id nextAddr nextId nextSpan else some pageCache
    else some pageCache

/-- Put a span at the head of the list of its page count. -/
def pushSpan (pageCache : PageCache) (id : Nat) : Option PageCache :=
  (pageCache.spans id).map fun span =>
    { pageCache with
      spans := Function.update pageCache.spans id
        (some { span with next := pageCache.head span.numPages })
      freeSpans_ := pageCache.freeSpans_.insert span.numPages id }

/-- `deallocateSpan`. -/
def deallocateSpan (pageCache : PageCache) (ptr numPages : Nat) : Option PageCache :=
  match pageCache.spanMap_ ptr with
  | none => some pageCache
  | some id =>
    let nextAddr := addrBehind ptr numPages
    let merged := match pageCache.spanMap_ nextAddr with
      | none => some pageCache
      | some nextId => pageCache.mergeNext id nextAddr nextId
    merged.bind (fun pageCache => pageCache.pushSpan id)

end PageCache

end RainWebServer.Memory
