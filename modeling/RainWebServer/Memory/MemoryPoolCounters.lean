import RainWebServer.Memory.MemoryPoolFrames

/-!
# MemoryPool: the Counters of the Free Lists

`freeListSize_` is meant to be the length of `freeList_`. `fetchFromCentralCache` adds the number of
blocks that it asked for, whatever `fetchRange` has brought, so the counter is right as long as
every batch is whole. `returnToCentralCache` trusts the counter: it keeps a quarter of the count,
and keeps everything when it does not find that many blocks.

## Main results

- `countersMatch_iff` : the counters are right in runs whose batches are all whole, and only in
  these
- `deallocate_threshold_iff` : when the list is within the threshold after `deallocate`
-/

namespace RainWebServer.Memory

open RainWebServer.Lib SizeClass

variable {T : Type} [DecidableEq T] {covers : Prop} {s s' : MemoryPool T}
  {owner : Addr → Option (Place T)}

/-! ## §1 The list that an action works on -/

/-- A request that the pool serves, rounded up from 0. -/
theorem request_le {size : Nat} (hsize : size ≤ MAX_BYTES) :
    getIndex (if size = 0 then ALIGNMENT else size) = getIndex size ∧
      (if size = 0 then ALIGNMENT else size) ≤ MAX_BYTES := by
  refine ⟨(getIndex_request size).1, ?_⟩
  split
  · decide
  · exact hsize

/-- `allocate` of a size that the pool serves, when the thread has a block. -/
theorem allocate_of_ne {t : T} {size : Nat} (hsize : size ≤ MAX_BYTES)
    (hptr : (s.threads t).freeList_ (getIndex size) ≠ 0) :
    s.allocate t size =
      { s.setThread t (((s.threads t).beginAllocate (getIndex size)).setFreeList (getIndex size)
          (s.mem ((s.threads t).freeList_ (getIndex size)))) with
        live := ((s.threads t).freeList_ (getIndex size), size) :: s.live } := by
  obtain ⟨hbytes, hsmall⟩ := request_le hsize
  unfold MemoryPool.allocate
  generalize (if size = 0 then ALIGNMENT else size) = bytes at hbytes hsmall ⊢
  simp only [hbytes]
  rw [if_neg (Nat.not_lt.mpr hsmall)]
  exact if_pos hptr

/-- And when it has none: the counter goes down before a batch is fetched. -/
theorem allocate_of_eq_zero {t : T} {size : Nat} (hsize : size ≤ MAX_BYTES)
    (hempty : (s.threads t).freeList_ (getIndex size) = 0) :
    s.allocate t size = (s.setThread t ((s.threads t).beginAllocate (getIndex size))).setCall t
      (.fetchRange (getIndex size) size) := by
  obtain ⟨hbytes, hsmall⟩ := request_le hsize
  have hlt := getIndex_lt hsize
  have hbatch := ThreadCache.lt_getBatchNum (blockSize (getIndex size))
  -- the checks at the head of `fetchRange` pass
  have hindex : ¬(getIndex size ≥ FREE_LIST_SIZE ∨
      ThreadCache.getBatchNum (blockSize (getIndex size)) = 0) := by omega
  have hnull : ((s.threads t).beginAllocate (getIndex size)).freeList_ (getIndex size) = 0 := hempty
  unfold MemoryPool.allocate
  generalize (if size = 0 then ALIGNMENT else size) = bytes at hbytes hsmall ⊢
  simp only [hbytes]
  rw [if_neg (Nat.not_lt.mpr hsmall), if_neg (not_not.mpr hnull), if_neg hindex]

/-- The thread takes a block of its list, or goes on to `fetchRange` with an empty one. The counter
    goes down in both cases. -/
theorem allocate_counts {t : T} {size : Nat} (hsize : size ≤ MAX_BYTES) {l : List Addr}
    (hchain : Chain s.mem 0 ((s.threads t).freeList_ (getIndex size)) l) :
    ((s.allocate t size).threads t).freeListSize_ (getIndex size) =
        sizeT ((s.threads t).freeListSize_ (getIndex size) + (2 ^ 64 - 1)) ∧
      ((∃ a rest, l = a :: rest ∧ Chain (s.allocate t size).mem 0
          (((s.allocate t size).threads t).freeList_ (getIndex size)) rest ∧
          (s.allocate t size).calls = s.calls) ∨
        l = [] ∧ ((s.allocate t size).threads t).freeList_ (getIndex size) = 0 ∧
          (s.allocate t size).calls t = .fetchRange (getIndex size) size) := by
  cases l with
  | nil =>
    have hempty : (s.threads t).freeList_ (getIndex size) = 0 := hchain
    rw [allocate_of_eq_zero hsize hempty]
    refine ⟨?_, .inr ⟨rfl, ?_, Function.update_self _ _ _⟩⟩
    · simp [MemoryPool.setCall, MemoryPool.setThread, ThreadCache.beginAllocate]
    · simpa [MemoryPool.setCall, MemoryPool.setThread, ThreadCache.beginAllocate] using hempty
  | cons a rest =>
    obtain ⟨hhead, ha, hrest⟩ := chain_cons.mp hchain
    rw [allocate_of_ne hsize (hhead ▸ ha), hhead]
    refine ⟨?_, .inl ⟨a, rest, rfl, ?_, rfl⟩⟩
    · simp [MemoryPool.setThread, ThreadCache.beginAllocate]
    · simpa [MemoryPool.setThread] using hrest

/-- A large block comes from `malloc`. -/
theorem allocate_of_lt {t : T} {size : Nat} (hbig : MAX_BYTES < size) :
    s.allocate t size = s := by
  have hbytes := (getIndex_request size).2
  unfold MemoryPool.allocate
  generalize (if size = 0 then ALIGNMENT else size) = bytes at hbytes ⊢
  simp only []
  rw [if_pos (Nat.lt_of_lt_of_le hbig hbytes)]

/-- The members after a batch has come. -/
theorem takeRange_counts (cache : ThreadCache) (mem : Words) (index : Nat) (start : Addr) :
    (cache.takeRange mem index start).freeList_ index = mem start ∧
      (cache.takeRange mem index start).freeListSize_ index =
        sizeT (cache.freeListSize_ index + ThreadCache.getBatchNum (blockSize index)) := by
  have hbatch := ThreadCache.lt_getBatchNum (blockSize index)
  unfold ThreadCache.takeRange
  simp only []
  rw [if_pos hbatch]
  simp

/-- With an empty central list the thread keeps the spin lock and goes on to the page cache. -/
theorem fetchRange_of_eq_zero (t : T) {index : Nat} (size : Nat)
    (hempty : s.centralCache.centralFreeList_ index = 0) :
    s.fetchRange t index size = (s.setLock index true).setCall t (.allocateSpan index size) := by
  unfold MemoryPool.fetchRange
  exact if_pos hempty

/-- A batch of the central list. The counter goes up by what was asked for. -/
theorem fetchRange_counts {t : T} {index : Nat} (size : Nat) {l : List Addr}
    (hcentral : Chain s.mem 0 (s.centralCache.centralFreeList_ index) l)
    (hne : s.centralCache.centralFreeList_ index ≠ 0) :
    ((s.fetchRange t index size).threads t).freeListSize_ index =
        sizeT ((s.threads t).freeListSize_ index + ThreadCache.getBatchNum (blockSize index)) ∧
      (s.fetchRange t index size).calls t = .idle ∧
      ∃ rest, Chain (s.fetchRange t index size).mem 0
          (((s.fetchRange t index size).threads t).freeList_ index) rest ∧
        rest.length + 1 = min (ThreadCache.getBatchNum (blockSize index)) l.length := by
  have hl : l ≠ [] := by
    rintro rfl
    exact hne hcentral
  obtain ⟨l₁, l₂, -, hlength, hbatch, -, -⟩ := CentralCache.takeBatch_spec hcentral hl
    (Nat.lt_trans Nat.zero_lt_one (ThreadCache.lt_getBatchNum (blockSize index)))
  unfold MemoryPool.fetchRange
  simp only []
  rw [if_neg hne]
  generalize CentralCache.takeBatch s.mem _ _ = taken at hbatch ⊢
  obtain ⟨mem', current⟩ := taken
  -- the first block is returned, and the thread keeps the others
  obtain ⟨rest, rfl, hrest⟩ := hbatch.exists_cons hne
  change Chain mem' 0 (mem' _) rest at hrest
  obtain ⟨hlist, hcounter⟩ := takeRange_counts (s.threads t) mem' index
    (s.centralCache.centralFreeList_ index)
  refine ⟨?_, Function.update_self _ _ _, rest, ?_, hlength⟩
  · rw [← hcounter]
    simp [MemoryPool.deliver, MemoryPool.setThread, MemoryPool.setCall, MemoryPool.setCentral]
  · rw [← hlist] at hrest
    simpa [MemoryPool.deliver, MemoryPool.setThread, MemoryPool.setCall, MemoryPool.setCentral]
      using hrest

/-- A batch of a new span. -/
theorem allocateSpan_counts (hlocks : LockInv s) {t : T} {index size memory : Nat}
    (hcall : s.calls t = .allocateSpan index size) (hmemory : memory ≠ 0)
    (hstep : s.allocateSpan t index size (some memory) = some s') :
    (s'.threads t).freeListSize_ index =
        sizeT ((s.threads t).freeListSize_ index + ThreadCache.getBatchNum (blockSize index)) ∧
      s'.calls t = .idle ∧
      ∃ rest, Chain s'.mem 0 ((s'.threads t).freeList_ index) rest ∧
        rest.length + 1 = max 1 (min (ThreadCache.getBatchNum (blockSize index))
          (SPAN_PAGES * PAGE_SIZE / blockSize index)) := by
  obtain ⟨hmem, hthreads, hcalls⟩ := allocateSpan_some hlocks.freeSpans hstep
  obtain ⟨l₁, l₂, -, hlength, hbatch, -⟩ :=
    carvedSpan_spec s.mem (hlocks.index_lt hcall) hmemory
  obtain ⟨hlist, hcounter⟩ := takeRange_counts (s.threads t) (carvedSpan s.mem memory index).1 index
    memory
  rw [hthreads, Function.update_self, hcalls, Function.update_self, hlist, hmem]
  exact ⟨hcounter, rfl, l₁, hbatch.2.2, hlength⟩

/-- After `giveBack` the thread is in no call or in `returnRange`. -/
theorem returning_giveBack {t : T} (size : Nat) (hidle : s.calls t = .idle) :
    Returning (s.giveBack t size) t := by
  unfold MemoryPool.giveBack
  simp only []
  split
  · exact .inl hidle
  · rename_i start bytes _
    split
    · exact .inl hidle
    · exact .inr ⟨start, bytes, getIndex size, Function.update_self _ _ _⟩

/-- `returnToCentralCache` keeps a quarter of the count, if it finds so many blocks, and all of them
    if it does not. -/
theorem giveBack_counts {t : T} {size : Nat} {l : List Addr}
    (hchain : Chain s.mem 0 ((s.threads t).freeList_ (getIndex size)) l) (hne : l ≠ [])
    {c : Nat} (hc : (s.threads t).freeListSize_ (getIndex size) = c) (hgt : 64 < c)
    (hlt : c < 2 ^ 64) :
    ∃ l', Chain (s.giveBack t size).mem 0
        (((s.giveBack t size).threads t).freeList_ (getIndex size)) l' ∧
      l'.length = min l.length (c / 4) ∧
      (c / 4 ≤ l.length →
        ((s.giveBack t size).threads t).freeListSize_ (getIndex size) = c / 4) := by
  have hmax : max (c / 4) 1 = c / 4 := Nat.max_eq_left (by omega)
  rw [mem_giveBack, threads_giveBack, Function.update_self]
  rcases ThreadCache.returnToCentralCache_spec hchain hne with ⟨heq, hshort⟩ | hcut
  · -- the list ends before the place where it would be cut
    rw [hc, hmax] at hshort
    have hlength := hshort (by omega)
    rw [heq]
    refine ⟨l, hchain, (Nat.min_eq_left (Nat.le_of_lt hlength)).symm, fun hle => ?_⟩
    exact absurd hlength (Nat.not_lt.mpr hle)
  · obtain ⟨l₁, l₂, mem', cache', call, heq, rfl, hlist, hcounter, hlength, hkeep, -⟩ := hcut
    rw [hc, hmax] at hlength hcounter
    rw [heq]
    refine ⟨l₁, ?_, ?_, fun _ => ?_⟩
    · rw [hlist]
      exact hkeep
    · rw [List.length_append, hlength]
      omega
    · rw [hcounter, Function.update_self]
      exact Nat.mod_eq_of_lt (by omega)

/-- **What `deallocate` does to the list and the counter.** Up to the threshold both grow by one;
    above it the list is cut to a quarter of the count, if it has so many blocks. -/
theorem PoolInv.deallocate_counts (h : PoolInv covers s owner) {t : T} {b : Addr × Nat}
    (hb : b ∈ s.live) {size : Nat} (hsize : size ≤ MAX_BYTES) (hidle : s.calls t = .idle)
    {l : List Addr} (hchain : Chain s.mem 0 ((s.threads t).freeList_ (getIndex size)) l) {c : Nat}
    (hc : sizeT ((s.threads t).freeListSize_ (getIndex size) + 1) = c) :
    Returning (s.deallocate t b.1 size) t ∧
    ∃ l', Chain (s.deallocate t b.1 size).mem 0
        (((s.deallocate t b.1 size).threads t).freeList_ (getIndex size)) l' ∧
      (c ≤ 64 → l'.length = l.length + 1 ∧
        ((s.deallocate t b.1 size).threads t).freeListSize_ (getIndex size) = c) ∧
      (64 < c → l'.length = min (l.length + 1) (c / 4) ∧
        (c / 4 ≤ l.length + 1 →
          ((s.deallocate t b.1 size).threads t).freeListSize_ (getIndex size) = c / 4)) := by
  have hpushed := chain_pushBlock s t (h.aligned _ _ (h.owner_live hb)).1 hchain
    (h.live_not_mem hb hchain)
  have hcount : ((s.pushBlock t b.1 (getIndex size)).threads t).freeListSize_ (getIndex size) =
      c := by
    rw [← hc]
    simp [MemoryPool.pushBlock, MemoryPool.setThread, ThreadCache.push]
  have hidle' : (s.pushBlock t b.1 (getIndex size)).calls t = .idle := hidle
  have hlt : c < 2 ^ 64 := hc ▸ Nat.mod_lt _ (by decide)
  unfold MemoryPool.deallocate
  rw [if_neg (Nat.not_lt.mpr hsize)]
  simp only []
  split
  · rename_i hreturn
    have hgt : 64 < c := by
      simpa [ThreadCache.shouldReturnToCentralCache, hcount] using hreturn
    obtain ⟨l', hl', hlength, hcounter⟩ :=
      giveBack_counts hpushed (List.cons_ne_nil _ _) hcount hgt hlt
    refine ⟨returning_giveBack size hidle', l', hl', ?_, fun _ => ⟨hlength, hcounter⟩⟩
    exact fun hle => absurd hgt (Nat.not_lt.mpr hle)
  · rename_i hkeep
    have hle : c ≤ 64 := by
      simpa [ThreadCache.shouldReturnToCentralCache, hcount] using hkeep
    exact ⟨.inl hidle', _, hpushed, fun _ => ⟨rfl, hcount⟩,
      fun hgt => absurd hgt (Nat.not_lt.mpr hle)⟩

/-! ## §2 Runs whose batches are whole -/

/-- The thread is in `fetchFromCentralCache` for the class `i`. -/
def Fetching (s : MemoryPool T) (t : T) (i : Nat) : Prop :=
  ∃ size, s.calls t = .fetchRange i size ∨ s.calls t = .allocateSpan i size

/-- The counter of one list is its length. During a fetch the list is empty and the block that is
    being fetched is already taken off the counter. -/
def CounterRight (s : MemoryPool T) (t : T) (i : Nat) (l : List Addr) : Prop :=
  (Fetching s t i → (s.threads t).freeListSize_ i = 2 ^ 64 - 1) ∧
    (¬Fetching s t i → (s.threads t).freeListSize_ i = l.length ∧ l.length ≤ 64)

/-- Every counter of every thread is right. -/
def CountersRight (s : MemoryPool T) : Prop :=
  ∀ t i l, Chain s.mem 0 ((s.threads t).freeList_ i) l → CounterRight s t i l

/-- The condition on an action: a batch has as many blocks as were asked for, from the central list
    or from a new span. -/
def BringsWholeBatch (s : MemoryPool T) : PoolAct T → Prop
  | .fetchRange t => ∀ index size l, s.calls t = .fetchRange index size →
      s.centralCache.centralFreeList_ index ≠ 0 →
      Chain s.mem 0 (s.centralCache.centralFreeList_ index) l →
      ThreadCache.getBatchNum (blockSize index) ≤ l.length
  | .allocateSpan t mmap => mmap ≠ none ∧ ∀ index size, s.calls t = .allocateSpan index size →
      ThreadCache.getBatchNum (blockSize index) ≤ SPAN_PAGES * PAGE_SIZE / blockSize index
  | _ => True

theorem getBatchNum_le (size : Nat) : ThreadCache.getBatchNum size ≤ 64 := by
  unfold ThreadCache.getBatchNum
  simp only []
  refine Nat.max_le.mpr ⟨by decide, Nat.le_trans (Nat.min_le_right _ _) ?_⟩
  split_ifs <;> decide

omit [DecidableEq T] in
theorem not_fetching_of_returning {t : T} (h : Returning s t) (i : Nat) : ¬Fetching s t i := by
  rintro ⟨size, hcall | hcall⟩
  · exact h.not_fetchRange i size hcall
  · exact h.not_allocateSpan i size hcall

omit [DecidableEq T] in
theorem not_fetching_of_idle {t : T} (h : s.calls t = .idle) (i : Nat) : ¬Fetching s t i :=
  not_fetching_of_returning (.inl h) i

omit [DecidableEq T] in
/-- A thread in `fetchRange`, or in the page cache, fetches for one class only. -/
theorem Fetching.index_eq {t : T} {i index size : Nat} (h : Fetching s t i)
    (hcall : s.calls t = .fetchRange index size ∨ s.calls t = .allocateSpan index size) :
    i = index := by
  obtain ⟨n, hfetch | hspan⟩ := h
  · rcases hcall with hcall | hcall
    · rw [hcall, PoolCall.fetchRange.injEq] at hfetch
      exact hfetch.1.symm
    · rw [hcall] at hfetch
      cases hfetch
  · rcases hcall with hcall | hcall
    · rw [hcall] at hspan
      cases hspan
    · rw [hcall, PoolCall.allocateSpan.injEq] at hspan
      exact hspan.1.symm

/-- A list that the action does not work on, of a thread that fetches for it if it did before. -/
theorem CountersRight.keep (h : CountersRight s) (hok : PoolOk covers s) {a : PoolAct T}
    (henabled : (memoryPoolMachine T).enabled s a = true)
    (hstep : (memoryPoolMachine T).step s a = some s') {u : T} {i : Nat} {l : List Addr}
    (hnot : ¬Touches s u i a) (hfetching : Fetching s' u i ↔ Fetching s u i)
    (hl : Chain s'.mem 0 ((s'.threads u).freeList_ i) l) : CounterRight s' u i l := by
  have hsame := untouched_step hok henabled hstep hnot
  obtain ⟨-, owner, hinv, -⟩ := hok
  obtain ⟨l₀, hl₀, -⟩ := hinv.lists (.thread u i)
  have hright := h u i l₀ hl₀
  unfold CounterRight at hright ⊢
  rw [hsame.counter, hfetching, hl.unique (hsame.list l₀ hl₀)]
  exact hright

/-- The counters after an action of the thread `t` on its list of class `index`. -/
theorem CountersRight.of_touched (h : CountersRight s) (hok : PoolOk covers s)
    {a : PoolAct T} {t : T}
    {index : Nat} (henabled : (memoryPoolMachine T).enabled s a = true)
    (hstep : (memoryPoolMachine T).step s a = some s')
    (htouched : ∀ u i, Touches s u i a → u = t ∧ i = index)
    (hfetching : ∀ i, i ≠ index → (Fetching s' t i ↔ Fetching s t i))
    (hothers : ∀ u, u ≠ t → s'.calls u = s.calls u) {l : List Addr}
    (hl : Chain s'.mem 0 ((s'.threads t).freeList_ index) l)
    (hmine : CounterRight s' t index l) : CountersRight s' := by
  intro u i l' hl'
  -- every list but this one is as it was
  rcases Classical.em (u = t ∧ i = index) with ⟨rfl, rfl⟩ | hne
  · rw [hl'.unique hl]
    exact hmine
  · refine h.keep hok henabled hstep (fun htouches => hne (htouched u i htouches)) ?_ hl'
    rcases Classical.em (u = t) with rfl | hu
    · exact hfetching i fun hi => hne ⟨rfl, hi⟩
    · unfold Fetching
      rw [hothers u hu]

/-- The counter of a fetched batch: the block that `allocate` took off in advance is there now. -/
theorem counter_of_batch {n k : Nat} (hn : 1 < n) (hle : n ≤ 64) (hk : k + 1 = n) :
    sizeT (2 ^ 64 - 1 + n) = k ∧ k ≤ 64 := by
  unfold sizeT
  omega

theorem CountersRight.allocate (h : CountersRight s) (hok : PoolOk covers s) {t : T} (size : Nat)
    (henabled : (memoryPoolMachine T).enabled s (.allocate t size) = true) :
    CountersRight (s.allocate t size) := by
  have hidle : s.calls t = .idle := of_decide_eq_true henabled
  have hnot := not_fetching_of_idle hidle
  rcases Nat.lt_or_ge MAX_BYTES size with hbig | hsmall
  · rw [allocate_of_lt hbig]
    exact h
  · obtain ⟨-, owner, hinv, -⟩ := id hok
    obtain ⟨l, hl, -⟩ := hinv.lists (.thread t (getIndex size))
    obtain ⟨hright, hle⟩ := (h t _ l hl).2 (hnot _)
    obtain ⟨hcounter, htaken | hfetch⟩ := allocate_counts hsmall hl
    · -- the counter goes down with the list
      obtain ⟨a, rest, rfl, hrest, hcalls⟩ := htaken
      have hnot' : ∀ i, ¬Fetching (s.allocate t size) t i :=
        not_fetching_of_idle (by rw [hcalls]; exact hidle)
      refine h.of_touched hok henabled rfl (fun _ _ htouches => htouches)
        (fun i _ => iff_of_false (hnot' i) (hnot i))
        (fun u hu => calls_allocate_of_ne s size hu) hrest
        ⟨fun hfetching => absurd hfetching (hnot' _), fun _ => ?_⟩
      rw [List.length_cons] at hright hle
      rw [hcounter, hright]
      unfold sizeT
      omega
    · -- with an empty list the counter wraps, until the batch comes
      obtain ⟨rfl, hempty, hcall⟩ := hfetch
      refine h.of_touched hok henabled rfl (fun _ _ htouches => htouches) (fun i hi => ?_)
        (fun u hu => calls_allocate_of_ne s size hu) (l := []) hempty
        ⟨fun _ => ?_, fun hnone => absurd ⟨size, .inl hcall⟩ hnone⟩
      · exact iff_of_false (fun hfetching => hi (hfetching.index_eq (.inl hcall))) (hnot i)
      · rw [hcounter, hright]
        rfl

theorem CountersRight.fetchRange (h : CountersRight s) (hok : PoolOk covers s) {t : T}
    {index size : Nat} (hcall : s.calls t = .fetchRange index size)
    (henabled : (memoryPoolMachine T).enabled s (.fetchRange t) = true)
    (hbatch : BringsWholeBatch s (.fetchRange t)) : CountersRight (s.fetchRange t index size) := by
  have hstep : (memoryPoolMachine T).step s (.fetchRange t) = some (s.fetchRange t index size) := by
    simp only [memoryPoolMachine, hcall]
  have htouched : ∀ u i, Touches s u i (.fetchRange t) → u = t ∧ i = index := by
    rintro u i ⟨rfl, n, hn⟩
    rw [hcall, PoolCall.fetchRange.injEq] at hn
    exact ⟨rfl, hn.1.symm⟩
  have hother : ∀ i, i ≠ index → ¬Fetching s t i :=
    fun i hi hfetching => hi (hfetching.index_eq (.inl hcall))
  obtain ⟨-, owner, hinv, -⟩ := id hok
  obtain ⟨l, hl, -⟩ := hinv.lists (.thread t index)
  have hright := (h t index l hl).1 ⟨size, .inl hcall⟩
  rcases Classical.em (s.centralCache.centralFreeList_ index = 0) with hempty | hne
  · -- the thread goes on to the page cache with everything as it is
    have hafter := fetchRange_of_eq_zero t size hempty
    have hcall' : (s.fetchRange t index size).calls t = .allocateSpan index size := by
      rw [hafter]
      exact Function.update_self _ _ _
    refine h.of_touched hok henabled hstep htouched (fun i hi => iff_of_false ?_ (hother i hi))
      (fun u hu => calls_fetchRange_of_ne s index size hu) (l := l) ?_
      ⟨fun _ => ?_, fun hnone => absurd ⟨size, .inr hcall'⟩ hnone⟩
    · exact fun hfetching => hi (hfetching.index_eq (.inr hcall'))
    · rw [hafter]
      exact hl
    · rw [hafter]
      exact hright
  · -- the central list has the whole batch
    obtain ⟨lc, hlc, -⟩ := hinv.lists (.central index)
    obtain ⟨hcounter, hidle, rest, hrest, hlength⟩ := fetchRange_counts (t := t) size hlc hne
    have hnot := not_fetching_of_idle hidle
    refine h.of_touched hok henabled hstep htouched
      (fun i hi => iff_of_false (hnot i) (hother i hi))
      (fun u hu => calls_fetchRange_of_ne s index size hu) hrest
      ⟨fun hfetching => absurd hfetching (hnot _), fun _ => ?_⟩
    rw [Nat.min_eq_left (hbatch index size lc hcall hne hlc)] at hlength
    rw [hcounter, hright]
    exact counter_of_batch (ThreadCache.lt_getBatchNum _) (getBatchNum_le _) hlength

theorem CountersRight.allocateSpan (h : CountersRight s) (hok : PoolOk covers s) {t : T}
    {index size : Nat} {mmap : Option Addr} (hcall : s.calls t = .allocateSpan index size)
    (henabled : (memoryPoolMachine T).enabled s (.allocateSpan t mmap) = true)
    (hafter : s.allocateSpan t index size mmap = some s')
    (hbatch : BringsWholeBatch s (.allocateSpan t mmap)) : CountersRight s' := by
  obtain ⟨hmmap, hwhole⟩ := hbatch
  obtain ⟨memory, rfl⟩ := Option.ne_none_iff_exists'.mp hmmap
  have hstep : (memoryPoolMachine T).step s (.allocateSpan t (some memory)) = some s' := by
    simp only [memoryPoolMachine, hcall]
    exact hafter
  have hmemory : memory ≠ 0 := by
    simp only [memoryPoolMachine, hcall] at henabled
    exact ne_zero_of_mmap henabled
  obtain ⟨hlocks, owner, hinv, -⟩ := id hok
  obtain ⟨l, hl, -⟩ := hinv.lists (.thread t index)
  have hright := (h t index l hl).1 ⟨size, .inr hcall⟩
  obtain ⟨hcounter, hidle, rest, hrest, hlength⟩ :=
    allocateSpan_counts hlocks hcall hmemory hafter
  have hnot := not_fetching_of_idle hidle
  refine h.of_touched hok henabled hstep ?_ (fun i hi => iff_of_false (hnot i) ?_)
    (fun u hu => calls_allocateSpan_of_ne hafter hu) hrest
    ⟨fun hfetching => absurd hfetching (hnot _), fun _ => ?_⟩
  · rintro u i ⟨rfl, n, hn⟩
    rw [hcall, PoolCall.allocateSpan.injEq] at hn
    exact ⟨rfl, hn.1.symm⟩
  · exact fun hfetching => hi (hfetching.index_eq (.inr hcall))
  · have hlt := ThreadCache.lt_getBatchNum (blockSize index)
    rw [Nat.min_eq_left (hwhole index size hcall), Nat.max_eq_right (Nat.le_of_lt hlt)] at hlength
    rw [hcounter, hright]
    exact counter_of_batch hlt (getBatchNum_le _) hlength

omit [DecidableEq T] in
/-- The block that an enabled `deallocate` of the pool frees. -/
theorem exists_live_of_any {ptr : Addr} {size : Nat}
    (h : s.live.any (fun b => b.1 = ptr && getIndex b.2 = getIndex size) = true) :
    ∃ b ∈ s.live, b.1 = ptr := by
  obtain ⟨b, hb, heq⟩ := List.any_eq_true.mp h
  simp only [Bool.and_eq_true, decide_eq_true_eq] at heq
  exact ⟨b, hb, heq.1⟩

/-- The block that an enabled `deallocate` frees, and the state of its thread. -/
theorem deallocate_enabled {t : T} {ptr : Addr} {size : Nat} (hsize : size ≤ MAX_BYTES)
    (henabled : (memoryPoolMachine T).enabled s (.deallocate t ptr size) = true) :
    s.calls t = .idle ∧ ∃ b ∈ s.live, b.1 = ptr := by
  simp only [memoryPoolMachine, Bool.and_eq_true, decide_eq_true_eq] at henabled
  rw [if_neg (Nat.not_lt.mpr hsize)] at henabled
  exact ⟨henabled.1, exists_live_of_any henabled.2⟩

theorem CountersRight.deallocate (h : CountersRight s) (hok : PoolOk covers s) {t : T} {ptr : Addr}
    {size : Nat} (henabled : (memoryPoolMachine T).enabled s (.deallocate t ptr size) = true) :
    CountersRight (s.deallocate t ptr size) := by
  rcases Nat.lt_or_ge MAX_BYTES size with hbig | hsmall
  · rw [MemoryPool.deallocate, if_pos hbig]
    exact h
  · obtain ⟨hidle, b, hb, rfl⟩ := deallocate_enabled hsmall henabled
    have hnot := not_fetching_of_idle hidle
    obtain ⟨-, owner, hinv, -⟩ := id hok
    obtain ⟨l, hl, -⟩ := hinv.lists (.thread t (getIndex size))
    obtain ⟨hright, hle⟩ := (h t _ l hl).2 (hnot _)
    have hcount : sizeT ((s.threads t).freeListSize_ (getIndex size) + 1) = l.length + 1 := by
      rw [hright]
      exact Nat.mod_eq_of_lt (by omega)
    obtain ⟨hreturning, l', hl', hbelow, habove⟩ :=
      hinv.deallocate_counts hb hsmall hidle hl hcount
    have hnot' := not_fetching_of_returning hreturning
    refine h.of_touched hok henabled rfl (fun _ _ htouches => htouches)
      (fun i _ => iff_of_false (hnot' i) (hnot i))
      (fun u hu => calls_deallocate_of_ne s b.1 size hu) hl'
      ⟨fun hfetching => absurd hfetching (hnot' _), fun _ => ?_⟩
    rcases Nat.lt_or_ge 64 (l.length + 1) with hgt | hle'
    · -- the counter is right, so the quarter that is to be kept is there
      obtain ⟨hlength, hcounter⟩ := habove hgt
      rw [hcounter (Nat.div_le_self _ _), hlength, Nat.min_eq_right (Nat.div_le_self _ _)]
      exact ⟨rfl, by omega⟩
    · obtain ⟨hlength, hcounter⟩ := hbelow hle'
      rw [hcounter, hlength]
      exact ⟨rfl, hle'⟩

/-- **One action** keeps the counters right if its batch is whole. -/
theorem CountersRight.step (h : CountersRight s) (hok : PoolOk covers s) {a : PoolAct T}
    (henabled : (memoryPoolMachine T).enabled s a = true)
    (hstep : (memoryPoolMachine T).step s a = some s') (hbatch : BringsWholeBatch s a) :
    CountersRight s' := by
  cases poolStep_of_step hstep with
  | allocate t size => exact h.allocate hok size henabled
  | fetchRange hcall => exact h.fetchRange hok hcall henabled hbatch
  | allocateSpan hcall hspan => exact h.allocateSpan hok hcall henabled hspan hbatch
  | deallocate t ptr size => exact h.deallocate hok henabled
  | @returnRange t start bytes index hcall =>
    intro u i l hl
    refine h.keep hok henabled hstep (fun htouches => htouches) ?_ hl
    rcases Classical.em (u = t) with rfl | hu
    · -- the thread fetches neither before nor after
      exact iff_of_false (not_fetching_of_idle (Function.update_self _ _ _) i)
        (not_fetching_of_returning (.inr ⟨_, _, _, hcall⟩) i)
    · unfold Fetching
      rw [calls_step_of_ne hstep fun heq => hu (Option.some.inj heq).symm]
  | write addr value =>
    intro u i l hl
    exact h.keep hok henabled hstep (fun htouches => htouches) Iff.rfl hl

omit [DecidableEq T] in
theorem countersRight_start (mem : Words) :
    CountersRight (MemoryPool.start mem : MemoryPool T) := by
  intro t i l hl
  have hnil : l = [] := Chain.eq_nil hl
  rw [hnil]
  exact ⟨fun hfetching => absurd hfetching (not_fetching_of_idle rfl i), fun _ => ⟨rfl, by simp⟩⟩

/-- The counters of all threads that are between two calls are the lengths of their lists. -/
def CountersMatch (s : MemoryPool T) : Prop :=
  ∀ t, s.calls t = .idle → ∀ i, ∃ l, Chain s.mem 0 ((s.threads t).freeList_ i) l ∧
    (s.threads t).freeListSize_ i = l.length

omit [DecidableEq T] in
theorem CountersRight.countersMatch (h : CountersRight s) (hok : PoolOk covers s) :
    CountersMatch s := by
  intro t hidle i
  obtain ⟨-, owner, hinv, -⟩ := hok
  obtain ⟨l, hl, -⟩ := hinv.lists (.thread t i)
  exact ⟨l, hl, ((h t i l hl).2 (not_fetching_of_idle hidle i)).1⟩

omit [DecidableEq T] in
/-- A batch that was counted as `n` blocks and has fewer leaves the counter too high. -/
theorem not_countersMatch_of_short {t : T} {index n : Nat} {rest : List Addr} (hn : n ≤ 64)
    (hidle : s.calls t = .idle) (hrest : Chain s.mem 0 ((s.threads t).freeList_ index) rest)
    (hcounter : (s.threads t).freeListSize_ index = sizeT (2 ^ 64 - 1 + n))
    (hshort : rest.length + 1 < n) : ¬CountersMatch s := by
  intro hmatch
  obtain ⟨l, hl, hlength⟩ := hmatch t hidle index
  rw [hl.unique hrest, hcounter, sizeT] at hlength
  omega

/-- **A batch that is not whole** leaves a wrong counter, if `mmap` does not fail. -/
theorem CountersRight.step_short (h : CountersRight s) (hok : PoolOk covers s) {a : PoolAct T}
    (hmmap : ∀ t, a ≠ .allocateSpan t none) (henabled : (memoryPoolMachine T).enabled s a = true)
    (hstep : (memoryPoolMachine T).step s a = some s') (hbatch : ¬BringsWholeBatch s a) :
    ¬CountersMatch s' := by
  obtain ⟨hlocks, owner, hinv, -⟩ := hok
  cases a with
  | fetchRange t =>
    simp only [BringsWholeBatch, not_forall] at hbatch
    -- the central list has fewer blocks than are counted
    obtain ⟨index, size, lc, hcall, hne, hlc, hshort⟩ := hbatch
    simp only [memoryPoolMachine, hcall] at hstep
    cases hstep
    obtain ⟨l, hl, -⟩ := hinv.lists (.thread t index)
    have hright := (h t index l hl).1 ⟨size, .inl hcall⟩
    obtain ⟨hcounter, hidle, rest, hrest, hlength⟩ := fetchRange_counts (t := t) size hlc hne
    rw [hright] at hcounter
    exact not_countersMatch_of_short (getBatchNum_le _) hidle hrest hcounter (by omega)
  | allocateSpan t mmap =>
    have hsome : mmap ≠ none := by
      rintro rfl
      exact hmmap t rfl
    obtain ⟨memory, rfl⟩ := Option.ne_none_iff_exists'.mp hsome
    simp only [BringsWholeBatch, ne_eq, reduceCtorEq, not_false_eq_true, true_and,
      not_forall] at hbatch
    -- or the span has
    obtain ⟨index, size, hcall, hshort⟩ := hbatch
    simp only [memoryPoolMachine, hcall] at henabled hstep
    obtain ⟨l, hl, -⟩ := hinv.lists (.thread t index)
    have hright := (h t index l hl).1 ⟨size, .inr hcall⟩
    obtain ⟨hcounter, hidle, rest, hrest, hlength⟩ :=
      allocateSpan_counts hlocks hcall (ne_zero_of_mmap henabled) hstep
    rw [hright] at hcounter
    have hbatch := ThreadCache.lt_getBatchNum (blockSize index)
    exact not_countersMatch_of_short (getBatchNum_le _) hidle hrest hcounter (by omega)
  | _ => exact absurd trivial hbatch

/-- **When the counters are right.** In a run in which no `mmap` fails, the counters of all threads
    between two calls are the lengths of their lists in every state, if and only if every batch has
    as many blocks as were asked for. -/
theorem countersMatch_iff {mem : Words} {acts : List (PoolAct T)}
    (h : (memoryPoolMachine T).Reaches (.start mem) acts s)
    (hmmap : ∀ a ∈ acts, ∀ t, a ≠ .allocateSpan t none) :
    (∀ pre u, pre <+: acts → (memoryPoolMachine T).Reaches (.start mem) pre u → CountersMatch u) ↔
      (memoryPoolMachine T).ReachesAlong BringsWholeBatch (.start mem) acts s := by
  -- between two calls `CountersRight` says more, so it is the invariant of the run
  refine (h.along_iff (I := fun u => PoolOk False u ∧ CountersRight u)
    ⟨poolOk_start False mem, countersRight_start mem⟩ (fun u hu => hu.2.countersMatch hu.1) ?_ ?_
    hmmap).symm
  · rintro u a u' ⟨hok, hright⟩ henabled hbatch hstep
    obtain ⟨v, hv, hok'⟩ := poolOk_step hok henabled False.elim
    rw [hstep, Option.some.injEq] at hv
    exact ⟨hv ▸ hok', hright.step hok henabled hstep hbatch⟩
  · rintro u a u' ⟨hok, hright⟩ hsucceeds henabled hbatch hstep
    exact hright.step_short hok hsucceeds henabled hstep hbatch

/-- A decidable condition that is enough: every batch comes from a new span that has as many
    blocks. -/
def wholeSpans (s : MemoryPool T) : PoolAct T → Bool
  | .fetchRange t =>
    match s.calls t with
    | .fetchRange index _ => s.centralCache.centralFreeList_ index = 0
    | _ => true
  | .allocateSpan t mmap => mmap.isSome &&
    match s.calls t with
    | .allocateSpan index _ =>
      ThreadCache.getBatchNum (blockSize index) ≤ SPAN_PAGES * PAGE_SIZE / blockSize index
    | _ => true
  | _ => true

omit [DecidableEq T] in
theorem bringsWholeBatch_of_wholeSpans (s : MemoryPool T) (a : PoolAct T)
    (h : wholeSpans s a = true) : BringsWholeBatch s a := by
  cases a with
  | fetchRange t =>
    intro index size l hcall hne
    simp only [wholeSpans, hcall, decide_eq_true_eq] at h
    exact absurd h hne
  | allocateSpan t mmap =>
    simp only [wholeSpans, Bool.and_eq_true] at h
    refine ⟨Option.isSome_iff_ne_none.mp h.1, fun index size hcall => ?_⟩
    simpa only [hcall, decide_eq_true_eq] using h.2
  | _ => trivial

/-- One thread takes a block of a new span. -/
def spanRun (size : Nat) : List (PoolAct Unit) :=
  [.allocate () size, .fetchRange (), .allocateSpan () (some 65536)]

/-- Six blocks of 5000 bytes fit into a span, and four are asked for. -/
theorem spanRun_countersMatch :
    ∃ s, (memoryPoolMachine Unit).Reaches (.start fun _ => 7) (spanRun 5000) s ∧
      ∀ pre u, pre <+: spanRun 5000 →
        (memoryPoolMachine Unit).Reaches (.start fun _ => 7) pre u → CountersMatch u := by
  have hrun : ((memoryPoolMachine Unit).runAlong wholeSpans (.start fun _ => 7)
      (spanRun 5000)).isSome = true := by decide +kernel
  obtain ⟨s, hs⟩ := Option.isSome_iff_exists.mp hrun
  have hreach := (Machine.reachesAlong_of_runAlong hs).mono bringsWholeBatch_of_wholeSpans
  refine ⟨s, hreach.reaches, (countersMatch_iff hreach.reaches ?_).mpr hreach⟩
  simp [spanRun]

/-- Two blocks of 16384 bytes fit into a span. The thread gets them and counts four: with one block
    in its list, its counter is 3. -/
theorem spanRun_counter_too_high :
    ¬∀ (acts : List (PoolAct Unit)) (s : MemoryPool Unit),
      (memoryPoolMachine Unit).Reaches (.start fun _ => 7) acts s →
      (∀ a ∈ acts, ∀ t, a ≠ .allocateSpan t none) → CountersMatch s := by
  intro hall
  have hrun : ((memoryPoolMachine Unit).run (.start fun _ => 7) (spanRun 16384)).map
      (fun s => ((s.threads ()).freeListSize_ 2047, (s.threads ()).freeList_ 2047,
        s.mem ((s.threads ()).freeList_ 2047), s.calls ())) =
      some (3, 81920, 0, .idle) := by decide +kernel
  obtain ⟨s, hs, hend⟩ := Option.map_eq_some_iff.mp hrun
  simp only [Prod.mk.injEq] at hend
  obtain ⟨hcounter, hhead, hlink, hidle⟩ := hend
  obtain ⟨l, hl, hlength⟩ := hall _ s (Machine.reaches_of_run hs) (by simp [spanRun]) () hidle 2047
  obtain ⟨rest, rfl, hrest⟩ := hl.exists_cons (by rw [hhead]; decide)
  rw [hlink] at hrest
  rw [hcounter, hrest.eq_nil] at hlength
  cases hlength

/-! ## §3 The threshold -/

/-- **When `deallocate` keeps the threshold.** In every reachable state, once `deallocate` has done
    its part, and whatever the other threads do until the thread makes its next call, at most 64
    blocks are linked in the list if and only if there were fewer than 64, or the counter is above
    the threshold and a quarter of it is not. -/
theorem deallocate_threshold_iff {mem : Words} {before acts : List (PoolAct T)}
    (hs : (memoryPoolMachine T).Reaches (.start mem) before s) {t : T} {ptr : Addr} {size : Nat}
    (hsize : size ≤ MAX_BYTES)
    (henabled : (memoryPoolMachine T).enabled s (.deallocate t ptr size) = true)
    (hreach : (memoryPoolMachine T).Reaches (s.deallocate t ptr size) acts s')
    (hstart : ∀ a ∈ acts, ¬StartsCall t a) {l : List Addr}
    (hl : Chain s.mem 0 ((s.threads t).freeList_ (getIndex size)) l) :
    ∃ l', Chain s'.mem 0 ((s'.threads t).freeList_ (getIndex size)) l' ∧
      (l'.length ≤ 64 ↔ l.length < 64 ∨
        64 < sizeT ((s.threads t).freeListSize_ (getIndex size) + 1) ∧
          sizeT ((s.threads t).freeListSize_ (getIndex size) + 1) < 260) := by
  have hok := Machine.invariant_reaches (poolOk_invariant mem) hs
  obtain ⟨s₁, hs₁, hok₁⟩ := poolOk_step hok henabled False.elim
  cases hs₁
  obtain ⟨hidle, b, hb, rfl⟩ := deallocate_enabled hsize henabled
  obtain ⟨-, owner, hinv, -⟩ := hok
  generalize hc : sizeT ((s.threads t).freeListSize_ (getIndex size) + 1) = c
  obtain ⟨hreturning, l', hl', hbelow, habove⟩ := hinv.deallocate_counts hb hsize hidle hl hc
  have hsame := untouched_between_calls hok₁ hreturning hreach hstart (getIndex size)
  refine ⟨l', hsame.list l' hl', ?_⟩
  -- above the threshold a quarter of the count stays, otherwise all blocks do
  rcases Nat.lt_or_ge 64 c with hgt | hle
  · obtain ⟨hlength, -⟩ := habove hgt
    omega
  · obtain ⟨hlength, -⟩ := hbelow hle
    omega

/-- The address after at most `n` links. -/
def linkAfter (mem : Words) : Nat → Addr → Addr
  | 0, h => h
  | n + 1, h => if h = 0 then 0 else linkAfter mem n (mem h)

/-- After `n` links the list has ended if it has at most `n` blocks. -/
theorem linkAfter_eq_zero_iff {mem : Words} {n : Nat} {h : Addr} {l : List Addr}
    (hl : Chain mem 0 h l) : linkAfter mem n h = 0 ↔ l.length ≤ n := by
  induction n generalizing h l with
  | zero =>
    cases l with
    | nil => exact iff_of_true hl (Nat.le_refl 0)
    | cons a l =>
      obtain ⟨rfl, hne, -⟩ := chain_cons.mp hl
      exact iff_of_false hne (by simp)
  | succ n ih =>
    cases l with
    | nil =>
      have hzero : h = 0 := hl
      rw [linkAfter, if_pos hzero]
      exact iff_of_true rfl (Nat.zero_le _)
    | cons a l =>
      obtain ⟨rfl, hne, hrest⟩ := chain_cons.mp hl
      rw [linkAfter, if_neg hne, ih hrest, List.length_cons, Nat.add_le_add_iff_right]

/-- The regions that `mmap` returns in the next run. -/
def region (k : Nat) : Addr := 65536 * (k + 1)

/-- A thread takes 66 blocks of 40000 bytes, each of which has a span of its own, and frees 64. -/
def driftRun : List (PoolAct Unit) :=
  (List.range 66).flatMap
    (fun k => [.allocate () 40000, .fetchRange (), .allocateSpan () (some (region k))]) ++
  (List.range 64).map fun k => .deallocate () (region k) 40000

theorem driftRun_reaches :
    ∃ s, (memoryPoolMachine Unit).Reaches (.start fun _ => 7) driftRun s ∧
      (memoryPoolMachine Unit).enabled s (.deallocate () (region 64) 40000) = true ∧
      (s.deallocate () (region 64) 40000).calls () = .idle ∧
      linkAfter (s.deallocate () (region 64) 40000).mem 64
        (((s.deallocate () (region 64) 40000).threads ()).freeList_ (getIndex 40000)) ≠ 0 := by
  have hrun : ((memoryPoolMachine Unit).run (.start fun _ => 7) driftRun).map
      (fun s => (memoryPoolMachine Unit).enabled s (.deallocate () (region 64) 40000) &&
        decide ((s.deallocate () (region 64) 40000).calls () = .idle) &&
        decide (linkAfter (s.deallocate () (region 64) 40000).mem 64
          (((s.deallocate () (region 64) 40000).threads ()).freeList_ (getIndex 40000)) ≠ 0)) =
      some true := by decide +kernel
  obtain ⟨s, hs, hend⟩ := Option.map_eq_some_iff.mp hrun
  simp only [Bool.and_eq_true, decide_eq_true_eq] at hend
  exact ⟨s, Machine.reaches_of_run hs, hend.1.1, hend.1.2, hend.2⟩

/-- Every fetch has counted three blocks too many. The 65th free finds the counter at 263 and looks
    for a quarter of that in a list of 65 blocks, so nothing is given back. -/
theorem driftRun_exceeds_threshold :
    ¬∀ (before acts : List (PoolAct Unit)) (s s' : MemoryPool Unit) (ptr size : Nat),
      (memoryPoolMachine Unit).Reaches (.start fun _ => 7) before s →
      (∀ a ∈ before ++ acts, ∀ t, a ≠ .allocateSpan t none) → size ≤ MAX_BYTES →
      (memoryPoolMachine Unit).enabled s (.deallocate () ptr size) = true →
      (memoryPoolMachine Unit).Reaches (s.deallocate () ptr size) acts s' →
      (∀ a ∈ acts, ¬StartsCall () a) → s'.calls () = .idle →
      ∃ l, Chain s'.mem 0 ((s'.threads ()).freeList_ (getIndex size)) l ∧ l.length ≤ 64 := by
  intro hall
  obtain ⟨s, hs, henabled, hidle, hlinks⟩ := driftRun_reaches
  have hmmap : ∀ a ∈ driftRun ++ [], a ≠ .allocateSpan () none := by decide +kernel
  obtain ⟨l, hl, hle⟩ := hall driftRun [] s _ (region 64) 40000 hs (fun a ha _ => hmmap a ha)
    (by decide) henabled .refl (by simp) hidle
  exact hlinks ((linkAfter_eq_zero_iff hl).mpr hle)

/-- One block of a new span is freed; its class has three blocks in the list and a counter of 3. -/
theorem spanRun_within_threshold :
    ∃ s l, (memoryPoolMachine Unit).Reaches (.start fun _ => 7) (spanRun 5000) s ∧
      Chain (s.deallocate () 65536 5000).mem 0
        (((s.deallocate () 65536 5000).threads ()).freeList_ (getIndex 5000)) l ∧
      l.length ≤ 64 := by
  have hrun : ((memoryPoolMachine Unit).run (.start fun _ => 7) (spanRun 5000)).map
      (fun s => ((memoryPoolMachine Unit).enabled s (.deallocate () 65536 5000),
        linkAfter s.mem 3 ((s.threads ()).freeList_ (getIndex 5000)))) = some (true, 0) := by
    decide +kernel
  obtain ⟨s, hs, hend⟩ := Option.map_eq_some_iff.mp hrun
  obtain ⟨henabled, hlinks⟩ := Prod.mk.inj hend
  have hreach := Machine.reaches_of_run hs
  obtain ⟨-, owner, hinv, -⟩ := Machine.invariant_reaches (poolOk_invariant _) hreach
  obtain ⟨l, hl, -⟩ := hinv.lists (.thread () (getIndex 5000))
  have hlength : l.length ≤ 3 := (linkAfter_eq_zero_iff hl).mp hlinks
  obtain ⟨l', hl', hiff⟩ :=
    deallocate_threshold_iff hreach (by decide) henabled .refl (by simp) hl
  exact ⟨s, l', hreach, hl', hiff.mpr (.inl (by omega))⟩

end RainWebServer.Memory
