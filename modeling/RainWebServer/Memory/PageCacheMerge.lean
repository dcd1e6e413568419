import RainWebServer.Memory.PageCacheRuns

/-!
# PageCache: Merging with the Span Behind

`deallocateSpan` is meant to merge the freed span with a free span behind it, its right
neighbour. It looks the neighbour up in `spanMap_`, where a span is registered when it is handed
out. A span that was freed keeps its entry. The rest of a split has none until it is handed out,
so a free neighbour of that kind is not found, and two free spans are left side by side.

## Main results

- `SpanInv.mergeNext_of_free` : a registered neighbour on a free list is found and taken
- `deallocateSpan_merges_iff` : the spans are merged exactly if the neighbour is registered
-/

namespace RainWebServer.Memory

open RainWebServer.Lib

/-! ## §1 The neighbour that is found -/

namespace SpanInv

variable {p : PageCache} {live : List (Addr × Nat)} {owner : Nat → Option SpanPlace}

/-- **A registered neighbour on a free list is found and taken**, at the head of its list or
    behind it. -/
theorem mergeNext_of_free (h : SpanInv p live owner) {id nextId : Nat} {span nextSpan : Span}
    (nextAddr : Addr) (hid : owner id = some .held) (hspan : p.spans id = some span)
    (hfree : owner nextId = some (.free nextSpan.numPages))
    (hnextSpan : p.spans nextId = some nextSpan)
    (haddr : nextSpan.pageAddr = span.pageAddr + span.numPages * PAGE_SIZE) :
    ∃ q, p.mergeNext id nextAddr nextId = some q ∧ q.spans nextId = none ∧
      q.spans id = some { span with numPages := span.numPages + nextSpan.numPages } := by
  have hne : id ≠ nextId := by
    rintro rfl
    rw [hid] at hfree
    cases hfree
  -- what the neighbour leaves behind, once it is off its list
  have habsorb : ∀ r : PageCache, r.spans id = some span → ∃ q,
      r.absorbNext id nextAddr nextId nextSpan = some q ∧ q.spans nextId = none ∧
        q.spans id = some { span with numPages := span.numPages + nextSpan.numPages } := by
    intro r hr
    rw [PageCache.absorbNext, hr, Option.map_some, h.sum_pages hnextSpan haddr]
    refine ⟨_, rfl, Function.update_self _ _ _, ?_⟩
    exact (Function.update_of_ne hne _ _).trans (Function.update_self _ _ _)
  rw [PageCache.mergeNext, hnextSpan, Option.bind_some]
  by_cases hhead : p.head nextSpan.numPages = nextId
  · simp only [hhead, if_true]
    apply habsorb
    exact hspan
  · have hlist : p.head nextSpan.numPages ≠ 0 := by
      intro hzero
      obtain ⟨l, hchain, howned⟩ := h.lists nextSpan.numPages
      rw [hzero] at hchain
      have hmem := (howned nextId).mpr hfree
      rw [hchain.eq_nil] at hmem
      cases hmem
    obtain ⟨spans, hsearch, -, -, hsame⟩ := h.unlinkNext hfree hnextSpan hhead
    simp only [hhead, if_false, hlist, ne_eq, not_false_eq_true, if_true, hsearch,
      Option.bind_some]
    apply habsorb
    exact (hsame id hid).trans hspan

end SpanInv

/-! ## §2 Free and live objects -/

namespace SpanIdle

variable {p : PageCache} {live : List (Addr × Nat)}

/-- Between the calls an object is on the list of its page count, unless it is live. -/
theorem onList_iff (h : SpanIdle p live) {id : Nat} {span : Span} (hspan : p.spans id = some span) :
    OnList p span.numPages id ↔ (span.pageAddr, span.numPages) ∉ live := by
  obtain ⟨owner, hinv, hidle⟩ := h
  constructor
  · rintro ⟨l, hchain, hmem⟩ hlive
    have hfree := (hinv.lists.mem_iff hchain id).mp hmem
    obtain ⟨i, other, hi, hother, haddr, -⟩ := (hinv.handed _ _).mp hlive
    rw [hinv.eq_of_addr hother hspan haddr, hfree] at hi
    cases hi
  · intro hnot
    obtain ⟨place, hplace⟩ := hinv.place hspan
    cases place with
    | live => exact absurd ((hinv.handed _ _).mpr ⟨id, span, hplace, hspan, rfl, rfl⟩) hnot
    | free k =>
      rw [← hinv.counts id k span hplace hspan] at hplace
      obtain ⟨l, hchain, howned⟩ := hinv.lists span.numPages
      exact ⟨l, hchain, (howned id).mpr hplace⟩
    | held => exact absurd hplace (hidle id)

/-- The pages of a live span end in the address space. -/
theorem addrBehind_live (h : SpanIdle p live) {ptr n : Nat} (hlive : (ptr, n) ∈ live) :
    addrBehind ptr n = ptr + n * PAGE_SIZE := by
  obtain ⟨owner, hinv, -⟩ := h
  obtain ⟨id, span, -, hspan, rfl, rfl⟩ := (hinv.handed ptr n).mp hlive
  exact addrBehind_of_lt (hinv.end_lt hspan)

/-- A live span is handed out once, so after it was freed no live span has its address. -/
theorem not_mem_erase (h : SpanIdle p live) {ptr n : Nat} (hlive : (ptr, n) ∈ live) (m : Nat) :
    (ptr, m) ∉ live.erase (ptr, n) := by
  obtain ⟨owner, hinv, -⟩ := h
  rw [hinv.once.mem_erase_iff]
  rintro ⟨hne, hmem⟩
  obtain ⟨i, a, -, ha, haddr, hcount⟩ := (hinv.handed ptr n).mp hlive
  obtain ⟨j, b, -, hb, haddr', hcount'⟩ := (hinv.handed ptr m).mp hmem
  have hij := hinv.eq_of_addr ha hb (haddr.trans haddr'.symm)
  rw [hij, hb, Option.some.injEq] at ha
  subst ha
  exact hne (by rw [← hcount, ← hcount'])

end SpanIdle

/-! ## §3 Freeing a span with a free neighbour -/

/-- The object `id` is a free span of `k` pages at `addr`. -/
def FreeAt (p : PageCache) (addr k id : Nat) : Prop :=
  OnList p k id ∧ ∃ next, p.spans id = some ⟨addr, k, next⟩

/-- A free span that is alone on its list. -/
theorem freeAt_of_alone {p : PageCache} {addr k id : Nat} (hhead : p.head k = id) (hid : id ≠ 0)
    (hspan : p.spans id = some ⟨addr, k, 0⟩) : FreeAt p addr k id :=
  ⟨⟨[id], ⟨hhead, hid, SpanInv.nextOf_eq hspan⟩, List.mem_singleton_self id⟩, 0, hspan⟩

/-- Freeing the span of `n` pages at `ptr` merges it with the span `nextId` of `m` pages behind
    it: that one leaves the free lists, and the free span at `ptr` has `n + m` pages. -/
def MergesNext (p : PageCache) (ptr n m nextId : Nat) : Prop :=
  ∃ q, p.deallocateSpan ptr n = some q ∧ (∀ k, ¬OnList q k nextId) ∧
    ∃ id, FreeAt q ptr (n + m) id

namespace SpanIdle

variable {p : PageCache} {live : List (Addr × Nat)} {ptr n m nextId : Nat}

/-- A neighbour that is registered is merged. -/
theorem mergesNext (h : SpanIdle p live) (hlive : (ptr, n) ∈ live)
    (hnext : FreeAt p (ptr + n * PAGE_SIZE) m nextId)
    (hmap : p.spanMap_ (ptr + n * PAGE_SIZE) ≠ none) : MergesNext p ptr n m nextId := by
  obtain ⟨q, hq, hqidle, -⟩ := h.deallocateSpan hlive
  have hgone := h.not_mem_erase hlive
  obtain ⟨owner, hinv, -⟩ := h
  obtain ⟨⟨l, hchain, hmem⟩, next, hnextSpan⟩ := hnext
  have hfree := (hinv.lists.mem_iff hchain nextId).mp hmem
  -- an entry of `spanMap_` belongs to the object at its address
  obtain ⟨i, hi⟩ := Option.ne_none_iff_exists'.mp hmap
  obtain ⟨other, hother, haddr⟩ := hinv.map _ i hi
  obtain rfl := hinv.eq_of_addr hother hnextSpan haddr
  obtain ⟨id, span, hid, hspan, rfl, rfl⟩ := (hinv.handed _ _).mp hlive
  have hregistered := hinv.registered id span hid hspan
  have hback := hinv.takeBack hid hspan rfl rfl
  have hne : i ≠ id := by
    rintro rfl
    rw [hid] at hfree
    cases hfree
  have hfree' : Function.update owner id (some SpanPlace.held) i = some (.free m) := by
    rw [Function.update_of_ne hne, hfree]
  obtain ⟨r, hr, hdeleted, hmerged⟩ := hback.mergeNext_of_free
    (span.pageAddr + span.numPages * PAGE_SIZE) (Function.update_self _ _ _) hspan hfree'
    hnextSpan rfl
  have hbehind := addrBehind_of_lt (hinv.end_lt hspan)
  -- the object that was merged is pushed, and nothing else changes
  rw [PageCache.deallocateSpan, hregistered] at hq
  simp only [hbehind, hi, hr, Option.bind_some, PageCache.pushSpan, hmerged, Option.map_some,
    Option.some.injEq] at hq
  have hqspan : q.spans id = some ⟨span.pageAddr, span.numPages + m,
      r.head (span.numPages + m)⟩ := by
    rw [← hq]
    exact Function.update_self _ _ _
  have hqnext : q.spans i = none := by
    rw [← hq]
    exact (Function.update_of_ne hne _ _).trans hdeleted
  refine ⟨q, ?_, ?_, id, ?_, _, hqspan⟩
  · rw [PageCache.deallocateSpan, hregistered]
    simp only [hbehind, hi, hr, Option.bind_some, PageCache.pushSpan, hmerged, Option.map_some, hq]
  · intro k hk
    obtain ⟨span', hspan', -⟩ := hqidle.agree.listed k i hk
    rw [hqnext] at hspan'
    cases hspan'
  · exact (hqidle.onList_iff hqspan).mpr (hgone _)

/-- A neighbour that is not registered stays on its list. -/
theorem not_mergesNext (h : SpanIdle p live) (hlive : (ptr, n) ∈ live)
    (hnext : FreeAt p (ptr + n * PAGE_SIZE) m nextId)
    (hmap : p.spanMap_ (ptr + n * PAGE_SIZE) = none) : ¬MergesNext p ptr n m nextId := by
  rintro ⟨q, hq, hoff, -⟩
  apply hoff m
  obtain ⟨hlisted, next, hnextSpan⟩ := hnext
  have hnot := (h.onList_iff hnextSpan).mp hlisted
  obtain ⟨q', hq', hqidle, -⟩ := h.deallocateSpan hlive
  rw [hq, Option.some.injEq] at hq'
  subst hq'
  obtain ⟨id, link, hid, hspan⟩ := h.agree.registered ptr n hlive
  have hne : nextId ≠ id := by
    rintro rfl
    rw [hnextSpan, Option.some.injEq, Span.mk.injEq] at hspan
    obtain ⟨haddr, rfl, -⟩ := hspan
    rw [haddr] at hnot
    exact hnot hlive
  rw [PageCache.deallocateSpan, hid] at hq
  simp only [h.addrBehind_live hlive, hmap, Option.bind_some, PageCache.pushSpan, hspan,
    Option.map_some, Option.some.injEq] at hq
  have hqnext : q.spans nextId = some ⟨ptr + n * PAGE_SIZE, m, next⟩ := by
    rw [← hq]
    exact (Function.update_of_ne hne _ _).trans hnextSpan
  refine (hqidle.onList_iff hqnext).mpr ?_
  exact fun hmem => hnot (List.mem_of_mem_erase hmem)

end SpanIdle

/-- **When a span is merged with the free span behind it.** After every run none of whose granted
    requests wraps, freeing a live span whose right neighbour is free merges the two exactly if
    the neighbour is registered in `spanMap_`, that is, if it was itself handed out and is not the
    rest of a split. -/
theorem deallocateSpan_merges_iff {mem : Words} {as : List SpanAct} {s : SpanState}
    (h : spanMachine.ReachesAlong (fun _ a => pagesFit a = true) (.start mem) as s)
    {ptr n m nextId : Nat}
    (hlive : spanMachine.enabled s (.deallocateSpan ptr n) = true)
    (hnext : FreeAt s.pageCache (ptr + n * PAGE_SIZE) m nextId) :
    MergesNext s.pageCache ptr n m nextId ↔
      s.pageCache.spanMap_ (ptr + n * PAGE_SIZE) ≠ none := by
  have hidle := spanMachine_idle h
  simp only [spanMachine, List.contains_iff_mem] at hlive
  constructor
  · intro hmerges hmap
    exact hidle.not_mergesNext hlive hnext hmap hmerges
  · exact hidle.mergesNext hlive hnext

/-- Both parts of a split are live, and the second is freed. -/
def freedNeighbourRun : List SpanAct :=
  [.allocateSpan 4 (some 65536), .deallocateSpan 65536 4, .allocateSpan 1 none,
    .allocateSpan 3 none, .deallocateSpan 69632 3]

/-- A neighbour that was handed out is merged. -/
theorem freedNeighbourRun_merges :
    ∃ s, spanMachine.ReachesAlong (fun _ a => pagesFit a = true) (.start (fun _ => 0))
        freedNeighbourRun s ∧
      (65536, 1) ∈ s.live ∧ FreeAt s.pageCache 69632 3 2 ∧ MergesNext s.pageCache 65536 1 3 2 := by
  have hrun : (spanMachine.run (.start (fun _ => 0)) freedNeighbourRun).map
      (fun s => (s.live, s.pageCache.head 3, s.pageCache.spans 2, s.pageCache.spanMap_ 69632)) =
        some ([(65536, 1)], 2, some ⟨69632, 3, 0⟩, some 2) := by
    decide +kernel
  obtain ⟨s, hs, hstate⟩ := Option.map_eq_some_iff.mp hrun
  simp only [Prod.mk.injEq] at hstate
  obtain ⟨hlive, hhead, hspan, hmap⟩ := hstate
  have hreach := (Machine.reaches_of_run hs).along (P := fun a => pagesFit a = true) (by decide)
  have henabled : spanMachine.enabled s (.deallocateSpan 65536 1) = true := by
    simp [spanMachine, hlive]
  have hfree := freeAt_of_alone hhead (by decide) hspan
  refine ⟨s, hreach, by simp [hlive], hfree, ?_⟩
  refine (deallocateSpan_merges_iff hreach henabled hfree).mpr ?_
  simp [PAGE_SIZE, hmap]

/-- A span is split, and its first part is live. -/
def splitRestRun : List SpanAct :=
  [.allocateSpan 4 (some 65536), .deallocateSpan 65536 4, .allocateSpan 1 none]

/-- **The rest of a split is not merged.** The page at 65536 is live, the three pages behind it
    are free, and freeing the page leaves them on their list. -/
theorem splitRestRun_not_merged :
    ∃ s, spanMachine.Reaches (.start (fun _ => 0)) splitRestRun s ∧
      spanMachine.enabled s (.deallocateSpan 65536 1) = true ∧
      FreeAt s.pageCache (65536 + 1 * PAGE_SIZE) 3 2 ∧
      ¬MergesNext s.pageCache 65536 1 3 2 := by
  have hrun : (spanMachine.run (.start (fun _ => 0)) splitRestRun).map
      (fun s => (s.live, s.pageCache.head 3, s.pageCache.spans 2, s.pageCache.spanMap_ 69632)) =
        some ([(65536, 1)], 2, some ⟨69632, 3, 0⟩, none) := by
    decide +kernel
  obtain ⟨s, hs, hstate⟩ := Option.map_eq_some_iff.mp hrun
  simp only [Prod.mk.injEq] at hstate
  obtain ⟨hlive, hhead, hspan, hmap⟩ := hstate
  have hreach := Machine.reaches_of_run hs
  have hmem : (65536, 1) ∈ s.live := by simp [hlive]
  have hfree := freeAt_of_alone hhead (by decide) hspan
  refine ⟨s, hreach, by simp [spanMachine, hlive], hfree, ?_⟩
  have hidle := spanMachine_idle (hreach.along (P := fun a => pagesFit a = true) (by decide))
  exact hidle.not_mergesNext hmem hfree hmap

end RainWebServer.Memory
