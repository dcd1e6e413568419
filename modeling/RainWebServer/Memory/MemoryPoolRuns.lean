import RainWebServer.Memory.MemoryPoolInv
import RainWebServer.Memory.MemoryPoolLocks

/-!
# MemoryPool: No Block in Two Places

Every action of the pool is a sequence of the moves of `PoolInv`: a list lets blocks go, a list
takes loose blocks, a loose block is handed out, a live block is taken back, a new span is
admitted. So the invariant holds in every reachable state, for every number of threads and every
interleaving of their actions, and what users of the pool rely on follows from it.

## Main results

- `poolInv_invariant` : the invariant is inductive, and no action faults
- `memoryPool_blocks_separate` : live blocks are disjoint, large enough and in one span, and no
  block is in two places
-/

namespace RainWebServer.Memory

open RainWebServer.Lib SizeClass

variable {T : Type} {covers : Prop} {s : MemoryPool T} {owner : Addr → Option (Place T)}

/-! ## §1 The heads of the lists -/

namespace MemoryPool

theorem head_setCentral (s : MemoryPool T) {index : Nat} (head : Addr) {f : FreeList T}
    (hf : f ≠ .central index) : (s.setCentral index head).head f = s.head f := by
  cases f with
  | thread t i => rfl
  | returning t i => rfl
  | central i =>
    apply Function.update_of_ne
    rintro rfl
    exact hf rfl

@[simp] theorem head_setCentral_self (s : MemoryPool T) (index : Nat) (head : Addr) :
    (s.setCentral index head).head (.central index) = head :=
  Function.update_self _ _ _

variable [DecidableEq T]

theorem head_setThread (s : MemoryPool T) {t : T} {cache : ThreadCache} {f : FreeList T}
    (hf : ∀ index, f = .thread t index →
      cache.freeList_ index = (s.threads t).freeList_ index) :
    (s.setThread t cache).head f = s.head f := by
  cases f with
  | central i => rfl
  | returning u i => rfl
  | thread u i =>
    rcases Classical.em (u = t) with rfl | hne
    · simp only [setThread, head, Function.update_self]
      exact hf i rfl
    · simp only [setThread, head, Function.update_of_ne hne]

@[simp] theorem head_setThread_self (s : MemoryPool T) (t : T) (cache : ThreadCache)
    (index : Nat) : (s.setThread t cache).head (.thread t index) = cache.freeList_ index := by
  simp only [setThread, head, Function.update_self]

theorem head_setCall (s : MemoryPool T) {t : T} {call : PoolCall} {f : FreeList T}
    (hf : ∀ index, f = .returning t index → call.list index = (s.calls t).list index) :
    (s.setCall t call).head f = s.head f := by
  cases f with
  | central i => rfl
  | thread u i => rfl
  | returning u i =>
    rcases Classical.em (u = t) with rfl | hne
    · simp only [setCall, head, Function.update_self]
      exact hf i rfl
    · simp only [setCall, head, Function.update_of_ne hne]

@[simp] theorem head_setCall_self (s : MemoryPool T) (t : T) (call : PoolCall) (index : Nat) :
    (s.setCall t call).head (.returning t index) = call.list index := by
  simp only [setCall, head, Function.update_self]

end MemoryPool

/-! ## §2 allocate -/

section Allocate

variable [DecidableEq T]

/-- A thread moves in its call without a list to return, before and after. -/
theorem PoolInv.setCall (h : PoolInv covers s owner) (t : T) (call : PoolCall)
    (hlist : call.list = (s.calls t).list)
    (hcall : ∀ start bytes index, call ≠ .returnRange start bytes index) :
    PoolInv covers (s.setCall t call) owner := by
  refine h.congr rfl rfl ?_ rfl rfl ?_
  · funext f
    exact s.head_setCall (fun index _ => congrFun hlist index)
  · intro u start bytes index hu
    rcases Classical.em (u = t) with rfl | hne
    · simp only [MemoryPool.setCall, Function.update_self] at hu
      exact absurd hu (hcall start bytes index)
    · simpa only [MemoryPool.setCall, Function.update_of_ne hne] using hu

/-- Only the counters of a thread change. -/
theorem PoolInv.setThread (h : PoolInv covers s owner) (t : T) {cache : ThreadCache}
    (hcache : cache.freeList_ = (s.threads t).freeList_) :
    PoolInv covers (s.setThread t cache) owner := by
  refine h.congr rfl rfl ?_ rfl rfl (fun _ _ _ _ hcall => hcall)
  funext f
  exact s.head_setThread (fun index _ => by rw [hcache])

omit [DecidableEq T] in
/-- The locks are not part of the invariant. -/
theorem PoolInv.setLock (h : PoolInv covers s owner) (index : Nat) (held : Bool) :
    PoolInv covers (s.setLock index held) owner := by
  refine h.congr rfl rfl ?_ rfl rfl (fun _ _ _ _ hcall => hcall)
  funext f
  cases f <;> rfl

/-- Another head of the thread's list of one class leaves the other lists alone. -/
theorem head_setFreeList (s : MemoryPool T) (t : T) {cache : ThreadCache} {index : Nat}
    {head : Addr} (hcache : cache.freeList_ = Function.update (s.threads t).freeList_ index head)
    (g : FreeList T) (hg : g ≠ .thread t index) : (s.setThread t cache).head g = s.head g := by
  apply s.head_setThread
  rintro i rfl
  rw [hcache]
  apply Function.update_of_ne
  rintro rfl
  exact hg rfl

omit [DecidableEq T] in
/-- A list whose head is null owns nothing. -/
theorem PoolInv.owner_ne_of_head (h : PoolInv covers s owner) (f : FreeList T)
    (hhead : s.head f = 0) (a : Addr) : owner a ≠ some (.free f) := by
  intro ha
  obtain ⟨l, hchain, howned⟩ := h.lists f
  rw [hhead] at hchain
  rw [← howned a, hchain.eq_nil] at ha
  cases ha

/-- The rest of `allocate` after `fetchRange`, whose result is a list of loose blocks. -/
theorem PoolInv.deliver (h : PoolInv covers s owner) {t : T} {index size : Nat} {start : Addr}
    {rest : List Addr} (hcall : (s.calls t).list = PoolCall.idle.list)
    (hempty : (s.threads t).freeList_ index = 0)
    (hindex : index = getIndex size ∧ size ≤ MAX_BYTES)
    (hchain : Chain s.mem 0 start (start :: rest))
    (hloose : ∀ a ∈ start :: rest, owner a = some (.loose index)) :
    ∃ owner', PoolInv covers (s.deliver t index size start) owner' ∧
      ∀ a, Loose owner' a → Loose owner a ∧ a ∉ start :: rest := by
  have hcache : ((s.threads t).takeRange s.mem index start).freeList_ =
      Function.update (s.threads t).freeList_ index (s.mem start) := by
    simp [ThreadCache.takeRange, ThreadCache.lt_getBatchNum]
  have hnodup := hchain.nodup
  -- the blocks behind the first one become the thread's list
  have hthread := h.relink (s.setThread t ((s.threads t).takeRange s.mem index start))
    (.thread t index) rest rfl rfl rfl (h.returns_move (by simp) (fun _ _ _ _ hcall => hcall))
    (head_setFreeList s t hcache) (fun _ _ _ => rfl) ?_
    (fun a ha => absurd ha (h.owner_ne_of_head (.thread t index) hempty a)) ?_
  · have hidle := hthread.setCall t .idle hcall.symm nofun
    have hfirst : reown owner rest (.free (.thread t index)) start = some (.loose index) := by
      rw [reown_of_not_mem (List.nodup_cons.mp hnodup).1]
      exact hloose start List.mem_cons_self
    refine ⟨_, hidle.handOut hindex hfirst, ?_⟩
    intro a ha
    obtain ⟨hstart, ha⟩ := loose_reown (by simp) ha
    obtain ⟨hrest, ha⟩ := loose_reown (by simp) ha
    refine ⟨ha, ?_⟩
    simpa [hrest] using hstart
  · rw [MemoryPool.head_setThread_self, hcache, Function.update_self]
    exact hchain.2.2
  · intro a ha
    exact .inr (hloose a (List.mem_cons_of_mem _ ha))

/-- The first block of the thread's list is handed out. -/
theorem PoolInv.popBlock (h : PoolInv covers s owner) {t : T} {index size : Nat}
    {cache : ThreadCache} (hcache : cache.freeList_ = (s.threads t).freeList_)
    (hptr : cache.freeList_ index ≠ 0) (hindex : index = getIndex size ∧ size ≤ MAX_BYTES) :
    ∃ owner', PoolInv covers
      { s.setThread t (cache.setFreeList index (s.mem (cache.freeList_ index))) with
        live := (cache.freeList_ index, size) :: s.live } owner' ∧
      ∀ a, Loose owner' a → Loose owner a := by
  rw [hcache] at hptr ⊢
  obtain ⟨l, hchain, howned⟩ := h.lists (.thread t index)
  obtain ⟨rest, rfl, hrest⟩ := hchain.exists_cons hptr
  have hupdate : (cache.setFreeList index (s.mem ((s.threads t).freeList_ index))).freeList_ =
      Function.update (s.threads t).freeList_ index
        (s.mem ((s.threads t).freeList_ index)) := by
    rw [ThreadCache.freeList_setFreeList, hcache]
  -- the block leaves the list, and only then is it handed out
  have hout := h.release
    (s.setThread t (cache.setFreeList index (s.mem ((s.threads t).freeList_ index))))
    (.thread t index) [(s.threads t).freeList_ index] rest rfl rfl rfl
    (fun _ _ _ _ hcall => hcall) (head_setFreeList s t hupdate) (fun _ _ => rfl) ?_ ?_ ?_
  · refine ⟨_, hout.handOut hindex (reown_of_mem List.mem_cons_self), ?_⟩
    intro a ha
    obtain ⟨hnot, ha⟩ := loose_reown (by simp) ha
    exact loose_of_not_mem ha hnot
  · intro a
    rw [← howned a, List.mem_cons, List.mem_singleton]
    rfl
  · intro a ha
    rw [List.mem_singleton.mp ha]
    exact (List.nodup_cons.mp hchain.nodup).1
  · rw [MemoryPool.head_setThread_self, hupdate, Function.update_self]
    exact hrest

/-- `allocate` up to the spin lock, or to the end. -/
theorem PoolInv.allocate (h : PoolInv covers s owner) {t : T} (size : Nat)
    (hidle : s.calls t = .idle) :
    ∃ owner', PoolInv covers (s.allocate t size) owner' ∧
      ∀ a, Loose owner' a → Loose owner a := by
  have hbytes := getIndex_request size
  unfold MemoryPool.allocate
  generalize (if size = 0 then ALIGNMENT else size) = bytes at hbytes ⊢
  obtain ⟨hindex, hle⟩ := hbytes
  simp only [hindex]
  rcases Nat.lt_or_ge MAX_BYTES bytes with hbig | hsmall
  · rw [if_pos hbig]
    exact ⟨owner, h, fun _ ha => ha⟩
  · rw [if_neg (Nat.not_lt.mpr hsmall)]
    split
    · rename_i hptr
      exact h.popBlock rfl hptr ⟨rfl, Nat.le_trans hle hsmall⟩
    · split
      · exact ⟨owner, h.setThread t rfl, fun _ ha => ha⟩
      · -- the counter goes down before the batch is fetched, whether or not one comes
        have hcounted : PoolInv covers
          (s.setThread t ((s.threads t).beginAllocate (getIndex size))) owner := h.setThread t rfl
        exact ⟨owner, hcounted.setCall t (.fetchRange (getIndex size) size)
          (congrArg PoolCall.list hidle).symm nofun, fun _ ha => ha⟩

/-- `fetchRange` under the lock: a batch from the central list, or the wait for the mutex. -/
theorem PoolInv.fetchRange (h : PoolInv covers s owner) (hlocks : LockInv s) {t : T}
    {index size : Nat} (hcall : s.calls t = .fetchRange index size) :
    ∃ owner', PoolInv covers (s.fetchRange t index size) owner' ∧
      ∀ a, Loose owner' a → Loose owner a := by
  obtain ⟨hok, hempty⟩ := hlocks.call hcall
  have hlist : (s.calls t).list = PoolCall.idle.list := by
    rw [hcall]
    rfl
  unfold MemoryPool.fetchRange
  simp only []
  split
  · exact ⟨owner, (h.setLock index true).setCall t (.allocateSpan index size) hlist.symm nofun,
      fun _ ha => ha⟩
  · rename_i hresult
    obtain ⟨l, hchain, howned⟩ := h.lists (.central index)
    -- the central list has blocks: the first `batchNum` of them are cut off
    have hne : l ≠ [] := by
      rintro rfl
      exact hresult hchain
    obtain ⟨l₁, l₂, hl, hlength, hbatch, hremain, hframe⟩ := CentralCache.takeBatch_spec hchain hne
      (Nat.lt_trans Nat.zero_lt_one (ThreadCache.lt_getBatchNum (blockSize index)))
    simp only [MemoryPool.head] at hbatch hremain hframe
    generalize CentralCache.takeBatch s.mem _ _ = taken at hbatch hremain hframe ⊢
    obtain ⟨mem', current⟩ := taken
    have hnodup := hchain.nodup
    rw [hl] at hnodup howned hframe
    have hcut := h.release ({ s with mem := mem' }.setCentral index current) (.central index)
      l₁ l₂ rfl rfl rfl (fun _ _ _ _ hcall => hcall)
      (fun g hg => MemoryPool.head_setCentral _ current hg) ?_ ?_ ?_ ?_
    · -- the batch starts with the block that was the head
      obtain ⟨rest, rfl, -⟩ := hbatch.exists_cons hresult
      obtain ⟨owner', h', hloose⟩ :=
        hcut.deliver hlist hempty hok hbatch (fun a ha => reown_of_mem ha)
      refine ⟨owner', h', ?_⟩
      intro a ha
      obtain ⟨ha, hnot⟩ := hloose a ha
      exact loose_of_not_mem ha hnot
    · intro a ha
      exact hframe a (fun hmem => ha ((howned a).mp hmem))
    · intro a
      rw [← howned a, List.mem_append]
    · intro a ha hmem
      exact List.disjoint_of_nodup_append hnodup ha hmem
    · rw [MemoryPool.head_setCentral_self]
      exact hremain

/-- Loose blocks are shared out between the central list, the thread's list and the caller. -/
theorem PoolInv.share (h : PoolInv covers s owner) {t : T} {index size : Nat} {start : Addr}
    {remainStart : Option Addr} {l₁ l₂ : List Addr}
    (hlist : (s.calls t).list = PoolCall.idle.list)
    (hempty : (s.threads t).freeList_ index = 0)
    (hcentral : s.centralCache.centralFreeList_ index = 0)
    (hok : index = getIndex size ∧ size ≤ MAX_BYTES)
    (hchain : Chain s.mem 0 start (start :: l₁))
    (hremain : ∀ rest, remainStart = some rest → Chain s.mem 0 rest l₂)
    (hnone : remainStart = none → l₂ = [])
    (hnodup : (start :: l₁ ++ l₂).Nodup)
    (hloose : ∀ a ∈ start :: l₁ ++ l₂, owner a = some (.loose index)) :
    ∃ owner', PoolInv covers ((match remainStart with
      | some rest => s.setCentral index rest
      | none => s).deliver t index size start) owner' ∧
      ∀ a, Loose owner' a → Loose owner a ∧ a ∉ start :: l₁ ++ l₂ := by
  cases remainStart with
  | none =>
    rw [hnone rfl, List.append_nil] at hloose ⊢
    exact h.deliver hlist hempty hok hchain hloose
  | some rest =>
    have hshared := h.relink (s.setCentral index rest) (.central index) l₂ rfl rfl rfl
      (h.returns_move (by simp) (fun _ _ _ _ hcall => hcall))
      (fun g hg => s.head_setCentral rest hg) (fun _ _ _ => rfl) ?_
      (fun a ha => absurd ha (h.owner_ne_of_head (.central index) hcentral a)) ?_
    · -- the batch is still loose after the rest went to the central list
      have hbatch : ∀ a ∈ start :: l₁,
          reown owner l₂ (.free (.central index)) a = some (.loose index) := by
        intro a ha
        have hnot : a ∉ l₂ := fun hmem => List.disjoint_of_nodup_append hnodup ha hmem
        rw [reown_of_not_mem hnot]
        exact hloose a (List.mem_append_left _ ha)
      obtain ⟨owner', h', hloose'⟩ := hshared.deliver hlist hempty hok hchain hbatch
      refine ⟨owner', h', ?_⟩
      intro a ha
      obtain ⟨ha, hnot⟩ := hloose' a ha
      obtain ⟨hnot', ha⟩ := loose_reown (by simp) ha
      refine ⟨ha, ?_⟩
      rw [List.mem_append, not_or]
      exact ⟨hnot, hnot'⟩
    · rw [MemoryPool.head_setCentral_self]
      exact hremain rest rfl
    · intro a ha
      exact .inr (hloose a (List.mem_append_right _ ha))

/-- The memory and the remaining blocks after a new span was wiped and cut. -/
def carvedSpan (mem : Words) (memory index : Nat) : Words × Option Addr :=
  CentralCache.carveSpan
    (memsetZero mem memory (sizeOfPages (CentralCache.spanPages (blockSize index)))) memory
    (blockSize index) (ThreadCache.getBatchNum (blockSize index))

/-- The two lists of a new span. Nothing outside of the span is written. -/
theorem carvedSpan_spec (mem : Words) {memory index : Nat} (hindex : index < FREE_LIST_SIZE)
    (hmemory : memory ≠ 0) :
    ∃ l₁ l₂, memory :: l₁ ++ l₂ = spanBlocks (memory, index) ∧
      l₁.length + 1 = max 1 (min (ThreadCache.getBatchNum (blockSize index))
        (SPAN_PAGES * PAGE_SIZE / blockSize index)) ∧
      Chain (carvedSpan mem memory index).1 0 memory (memory :: l₁) ∧
      (∀ rest, (carvedSpan mem memory index).2 = some rest →
        Chain (carvedSpan mem memory index).1 0 rest l₂) ∧
      ((carvedSpan mem memory index).2 = none → l₂ = []) ∧
      ∀ a : Nat, ¬(memory ≤ a ∧
        a < memory + CentralCache.spanPages (blockSize index) * PAGE_SIZE) →
        (carvedSpan mem memory index).1 a = mem a := by
  -- the word that ends the list of a span with one block
  have hzero : memsetZero mem memory
      (sizeOfPages (CentralCache.spanPages (blockSize index))) memory = 0 := by
    rw [CentralCache.sizeOfPages_spanPages hindex]
    exact if_pos (CentralCache.mem_span (blockSize_pos index)
      (CentralCache.start_mem_blocks memory (blockSize index)))
  obtain ⟨l₁, l₂, hblocks, hlength, hbatch, hremain, hnone, hframe⟩ :=
    CentralCache.carveSpan_spec hmemory (blockSize_pos index)
      (ThreadCache.lt_getBatchNum (blockSize index)) hzero
  refine ⟨l₁, l₂, hblocks, hlength, hbatch, hremain, hnone, fun a ha => ?_⟩
  rw [carvedSpan, hframe a (fun hmem => ha (CentralCache.mem_span (blockSize_pos index) hmem)),
    CentralCache.sizeOfPages_spanPages hindex]
  exact if_neg ha

/-- `fetchRange` from the mutex on: the blocks of the new span are shared out. -/
theorem PoolInv.allocateSpan (h : PoolInv covers s owner) (hlocks : LockInv s) {t : T}
    {index size : Nat} {mmap : Option Addr} (hcall : s.calls t = .allocateSpan index size)
    (hmmap : mmapReturns s.pageCache.mmapped (CentralCache.spanPages (blockSize index)) mmap =
      true) :
    ∃ s' owner', s.allocateSpan t index size mmap = some s' ∧ PoolInv covers s' owner' ∧
      ∀ a, Loose owner' a → Loose owner a := by
  obtain ⟨hok, hempty, -, hcentral, -⟩ := hlocks.call hcall
  have hlist : (s.calls t).list = PoolCall.idle.list := by
    rw [hcall]
    rfl
  unfold MemoryPool.allocateSpan CentralCache.fetchFromPageCache
  rw [PageCache.allocateSpan_of_freeSpans_nil _ _ _ hlocks.freeSpans]
  cases mmap with
  | none =>
    exact ⟨_, owner, rfl, (h.setLock index false).setCall t .idle hlist.symm nofun, fun _ ha => ha⟩
  | some memory =>
    obtain ⟨l₁, l₂, hspan, -, hbatch, hremain, hnone, hwritten⟩ :=
      carvedSpan_spec s.mem (hlocks.index_lt hcall) (ne_zero_of_mmap hmmap)
    have hadopt := (h.adopt (hlocks.index_lt hcall) _ hmmap hwritten).setLock index false
    have hnodup : (memory :: l₁ ++ l₂).Nodup :=
      hspan ▸ CentralCache.blocks_nodup (blockSize_pos index) 0 _
    obtain ⟨owner', h', hloose⟩ :=
      hadopt.share hlist hempty hcentral hok hbatch hremain hnone hnodup
      (fun a ha => reown_of_mem (hspan ▸ ha))
    refine ⟨_, owner', rfl, h', ?_⟩
    intro a ha
    obtain ⟨ha, hnot⟩ := hloose a ha
    exact loose_of_not_mem ha (fun hmem => hnot (hspan ▸ hmem))

end Allocate

/-! ## §3 deallocate -/

section Deallocate

variable [DecidableEq T]

/-- The list of the thread after the push of a block that was not on it. -/
theorem chain_pushBlock (s : MemoryPool T) (t : T) {ptr : Addr} {index : Nat} {l : List Addr}
    (hptr : ptr ≠ 0) (hchain : Chain s.mem 0 ((s.threads t).freeList_ index) l) (hnot : ptr ∉ l) :
    Chain (s.pushBlock t ptr index).mem 0 ((s.pushBlock t ptr index).head (.thread t index))
      (ptr :: l) := by
  refine ⟨?_, hptr, ?_⟩
  · simp [MemoryPool.pushBlock, MemoryPool.head, MemoryPool.setThread, ThreadCache.push]
  · have hlink : (s.pushBlock t ptr index).mem ptr = (s.threads t).freeList_ index :=
      Function.update_self _ _ _
    rw [hlink]
    apply hchain.congr
    intro a ha
    apply Function.update_of_ne
    rintro rfl
    exact hnot ha

omit [DecidableEq T] in
/-- A live block is on no list of a thread. -/
theorem PoolInv.live_not_mem (h : PoolInv covers s owner) {b : Addr × Nat} (hb : b ∈ s.live)
    {t : T} {index : Nat} {l : List Addr}
    (hchain : Chain s.mem 0 ((s.threads t).freeList_ index) l) : b.1 ∉ l := by
  intro hmem
  have hlive := h.owner_live hb
  rw [(h.lists.mem_iff (f := .thread t index) hchain b.1).mp hmem] at hlive
  cases hlive

/-- The push of `deallocate`: the block is taken back and becomes the head of the list. -/
theorem PoolInv.pushBlock (h : PoolInv covers s owner) (t : T) {b : Addr × Nat} (hb : b ∈ s.live) :
    ∃ owner', PoolInv covers (s.pushBlock t b.1 (getIndex b.2)) owner' ∧
      ∀ a, Loose owner' a → Loose owner a := by
  -- the client gives the block up first; its link is then the pool's to write
  have hback := h.takeBack hb
  obtain ⟨l, hchain, howned⟩ := h.lists (.thread t (getIndex b.2))
  have hnot := h.live_not_mem hb hchain
  have hkeep : ∀ a, a ≠ b.1 → reown owner [b.1] (.loose (getIndex b.2)) a = owner a :=
    fun a ha => reown_of_not_mem (by simpa using ha)
  have hpush := hback.relink (s.pushBlock t b.1 (getIndex b.2)) (.thread t (getIndex b.2))
    (b.1 :: l) rfl rfl rfl (hback.returns_move (by simp) (fun _ _ _ _ hcall => hcall))
    (head_setFreeList _ t rfl) ?_ ?_ ?_ ?_
  · refine ⟨_, hpush, ?_⟩
    intro a ha
    obtain ⟨hmem, ha⟩ := loose_reown (by simp) ha
    apply loose_of_not_mem ha
    intro hfreed
    exact hmem (List.mem_singleton.mp hfreed ▸ List.mem_cons_self)
  · intro a _ ha
    apply Function.update_of_ne
    rintro rfl
    exact ha (reown_of_mem List.mem_cons_self)
  · exact chain_pushBlock s t (h.aligned _ _ (h.owner_live hb)).1 hchain hnot
  · intro a ha
    rcases Classical.em (a = b.1) with rfl | hne
    · exact List.mem_cons_self
    · rw [hkeep a hne] at ha
      exact List.mem_cons_of_mem _ ((howned a).mpr ha)
  · intro a ha
    rcases List.mem_cons.mp ha with rfl | ha
    · exact .inr (reown_of_mem List.mem_cons_self)
    · rw [hkeep a (fun heq => hnot (heq ▸ ha))]
      exact .inl ((howned a).mp ha)

/-- The call of `returnRange` takes a list of loose blocks; with `covers` it is told enough. -/
theorem PoolInv.beginReturn (h : PoolInv covers s owner) {t : T} {start : Addr} {bytes index : Nat}
    {l : List Addr} (hlist : (s.calls t).list = PoolCall.idle.list)
    (hchain : Chain s.mem 0 start l) (hl : ∀ a ∈ l, owner a = some (.loose index))
    (hcover : covers → l.length ≤ max 1 bytes) :
    PoolInv covers (s.setCall t (.returnRange start bytes index))
      (reown owner l (.free (.returning t index))) := by
  have hempty := h.owner_ne_of_head (.returning t index) (congrFun hlist index)
  refine h.relink _ (.returning t index) l rfl rfl rfl ?_ ?_ (fun _ _ _ => rfl) ?_
    (fun a ha => absurd ha (hempty a)) (fun a ha => .inr (hl a ha))
  · intro hcovers u start' bytes' index' hcall l' hnodup hl'
    rcases Classical.em (u = t) with rfl | hne
    · simp only [MemoryPool.setCall, Function.update_self, PoolCall.returnRange.injEq] at hcall
      obtain ⟨rfl, rfl, rfl⟩ := hcall
      -- the list that the call holds is `l`
      refine Nat.le_trans (List.subperm_of_subset hnodup ?_).length_le (hcover hcovers)
      intro a ha
      by_contra hmem
      have howner := hl' a ha
      rw [reown_of_not_mem hmem] at howner
      exact hempty a howner
    · simp only [MemoryPool.setCall, Function.update_of_ne hne] at hcall
      apply h.returns hcovers u start' bytes' index' hcall l' hnodup
      intro a ha
      refine (reown_eq_iff ?_ (owner_ne hl (by simp)) a).mp (hl' a ha)
      simp [Ne.symm hne]
  · intro g hg
    apply s.head_setCall
    rintro i rfl
    have hi : index ≠ i := fun heq => hg (by rw [heq])
    rw [hlist, PoolCall.list, if_neg hi]
    rfl
  · rw [MemoryPool.head_setCall_self, PoolCall.list, if_pos rfl]
    exact hchain

/-- What `returnRange` is told covers the list that it is called with. -/
def MemoryPool.GivesCover (s : MemoryPool T) (t : T) (size : Nat) : Prop :=
  ∀ l, Chain s.mem 0 ((s.threads t).freeList_ (getIndex size)) l →
    l.length - max ((s.threads t).freeListSize_ (getIndex size) / 4) 1 ≤
      max 1 (sizeT (((s.threads t).freeListSize_ (getIndex size) -
        max ((s.threads t).freeListSize_ (getIndex size) / 4) 1) * roundUp size))

/-- `returnToCentralCache` up to the spin lock: what is cut off is held by the call. -/
theorem PoolInv.giveBack (h : PoolInv covers s owner) {t : T} {size : Nat}
    (hsize : size ≤ MAX_BYTES) (hidle : s.calls t = .idle)
    (hne : (s.threads t).freeList_ (getIndex size) ≠ 0) (hcover : covers → s.GivesCover t size) :
    ∃ owner', PoolInv covers (s.giveBack t size) owner' ∧
      ∀ a, Loose owner' a → Loose owner a := by
  obtain ⟨l, hchain, howned⟩ := h.lists (.thread t (getIndex size))
  have hl : l ≠ [] := by
    rintro rfl
    exact hne hchain
  have hlist : (s.calls t).list = PoolCall.idle.list := by rw [hidle]
  unfold MemoryPool.giveBack
  rcases ThreadCache.returnToCentralCache_spec hchain hl with ⟨heq, -⟩ | hcut
  · -- nothing is cut off, and the caches stay as they are
    simp only [heq]
    exact ⟨owner, h.setThread t rfl, fun _ ha => ha⟩
  · obtain ⟨l₁, l₂, mem', cache', call, heq, rfl, hcache, -, hlength, hkeep, hnone, hreturn,
      hframe⟩ := hcut
    simp only [heq]
    have hnodup := hchain.nodup
    have hrelease := h.release ({ s with mem := mem' }.setThread t cache')
      (.thread t (getIndex size)) l₂ l₁ rfl rfl rfl (fun _ _ _ _ hcall => hcall) ?_ ?_ ?_ ?_ ?_
    · rcases call with _ | ⟨start, bytes⟩
      · refine ⟨_, hrelease, ?_⟩
        intro a ha
        rw [hnone rfl] at ha
        exact loose_of_not_mem ha List.not_mem_nil
      · -- what was cut off is held by the call until the central lock is free
        obtain ⟨hreturned, hstart, hbytes⟩ := hreturn start bytes rfl
        have hindex : ¬(start = 0 ∨ getIndex size ≥ FREE_LIST_SIZE) := by
          have hlt := getIndex_lt hsize
          rintro (hzero | hge)
          · exact hstart hzero
          · exact absurd hlt (Nat.not_lt.mpr hge)
        simp only [if_neg hindex]
        refine ⟨_, hrelease.beginReturn hlist hreturned (fun a ha => reown_of_mem ha) ?_, ?_⟩
        · intro hcovers
          have hgives := hcover hcovers _ hchain
          rwa [List.length_append, hlength, Nat.add_sub_cancel_left, ← hbytes] at hgives
        · intro a ha
          obtain ⟨hmem, ha⟩ := loose_reown (by simp) ha
          exact loose_of_not_mem ha hmem
    · intro g hg
      exact MemoryPool.head_setThread _ (fun i _ => by rw [hcache])
    · intro a ha
      exact hframe a (fun hmem => ha ((howned a).mp hmem))
    · intro a
      rw [← howned a, List.mem_append, or_comm]
    · intro a ha hmem
      exact List.disjoint_of_nodup_append hnodup hmem ha
    · rw [MemoryPool.head_setThread_self, hcache]
      exact hkeep

/-- The condition under which a `deallocate` hands all its blocks back: if the counter goes above
    the threshold, the blocks of the list behind the first `keepNum` are not more than what
    `returnRange` is told, `returnNum * alignedSize`. -/
def MemoryPool.HandsAllBack (s : MemoryPool T) (t : T) (size : Nat) : Prop :=
  ∀ l, Chain s.mem 0 ((s.threads t).freeList_ (getIndex size)) l →
    let batchNum := sizeT ((s.threads t).freeListSize_ (getIndex size) + 1)
    batchNum > 64 →
      l.length + 1 - max (batchNum / 4) 1 ≤
        max 1 (sizeT ((batchNum - max (batchNum / 4) 1) * roundUp size))

/-- `deallocate` up to the spin lock, or to the end. -/
theorem PoolInv.deallocate (h : PoolInv covers s owner) {t : T} {ptr : Addr} {size : Nat}
    (hidle : s.calls t = .idle)
    (hlive : size ≤ MAX_BYTES → ∃ b ∈ s.live, b.1 = ptr ∧ getIndex b.2 = getIndex size)
    (hback : covers → size ≤ MAX_BYTES → s.HandsAllBack t size) :
    ∃ owner', PoolInv covers (s.deallocate t ptr size) owner' ∧
      ∀ a, Loose owner' a → Loose owner a := by
  unfold MemoryPool.deallocate
  rcases Nat.lt_or_ge MAX_BYTES size with hbig | hsmall
  · rw [if_pos hbig]
    exact ⟨owner, h, fun _ ha => ha⟩
  · rw [if_neg (Nat.not_lt.mpr hsmall)]
    obtain ⟨b, hb, rfl, hindex⟩ := hlive hsmall
    have hptr := (h.aligned _ _ (h.owner_live hb)).1
    obtain ⟨l, hchain, -⟩ := h.lists (.thread t (getIndex size))
    have hpushed := chain_pushBlock s t hptr hchain (h.live_not_mem hb hchain)
    have hcount : ((s.pushBlock t b.1 (getIndex size)).threads t).freeListSize_ (getIndex size) =
        sizeT ((s.threads t).freeListSize_ (getIndex size) + 1) := by
      simp [MemoryPool.pushBlock, MemoryPool.setThread, ThreadCache.push,
        ThreadCache.setFreeListSize]
    obtain ⟨owner', h', hloose⟩ := h.pushBlock t hb
    rw [hindex] at h'
    simp only []
    split
    · rename_i hreturn
      -- the list of `giveBack` is the one before with the freed block in front
      have hgives : covers → (s.pushBlock t b.1 (getIndex size)).GivesCover t size := by
        intro hcovers l' hchain'
        rw [← hpushed.unique hchain', hcount]
        apply hback hcovers hsmall l hchain
        simpa [ThreadCache.shouldReturnToCentralCache, hcount] using hreturn
      obtain ⟨owner'', h'', hloose'⟩ := h'.giveBack hsmall hidle
        (fun hzero => hptr (hpushed.1.symm.trans hzero)) hgives
      exact ⟨owner'', h'', fun a ha => hloose a (hloose' a ha)⟩
    · exact ⟨owner', h', hloose⟩

/-- `returnRange` under the lock: the returned list is linked in front of the central one. With
    `covers` nothing of it is left behind. -/
theorem PoolInv.returnRange (h : PoolInv covers s owner) (hlocks : LockInv s) {t : T} {start : Addr}
    {bytes index : Nat} (hcall : s.calls t = .returnRange start bytes index) :
    ∃ owner', PoolInv covers (s.returnRange t start bytes index) owner' ∧
      (covers → ∀ a, Loose owner' a → Loose owner a) := by
  have hstart : start ≠ 0 := hlocks.call hcall
  have hhead : ∀ i, s.head (.returning t i) = if index = i then start else 0 := by
    intro i
    show (s.calls t).list i = _
    rw [hcall]
    rfl
  obtain ⟨l, hchain, howned⟩ := h.lists (.returning t index)
  rw [hhead index, if_pos rfl] at hchain
  have hl : l ≠ [] := by
    rintro rfl
    exact hstart hchain
  -- the call lets the list go
  have hrelease := h.release (s.setCall t .idle) (.returning t index) l [] rfl rfl rfl ?_ ?_
    (fun _ _ => rfl) ?_ ?_ ?_
  · obtain ⟨lc, hcentral, hcowned⟩ := hrelease.lists (.central index)
    have hdisjoint : ∀ a ∈ l, a ∉ lc := by
      intro a ha hmem
      have hloose := (hcowned a).mp hmem
      rw [reown_of_mem ha] at hloose
      cases hloose
    obtain ⟨l₁, l₂, hsplit, hlength, hsplice, hframe⟩ :=
      CentralCache.spliceRange_spec bytes hchain hl hcentral hdisjoint
    have hrelink := hrelease.relink (s.returnRange t start bytes index) (.central index) (l₁ ++ lc)
      rfl rfl rfl (hrelease.returns_move (by simp) (fun _ _ _ _ hcall' => hcall')) ?_ ?_ ?_ ?_ ?_
    · refine ⟨_, hrelink, ?_⟩
      intro hcovers a ha
      obtain ⟨hnot, ha⟩ := loose_reown (by simp) ha
      rcases loose_reown_loose ha with hmem | ha
      · -- the search reached the end of the list
        have hle := h.returns hcovers t start bytes index hcall l hchain.nodup
          (fun a ha => (howned a).mp ha)
        have hall : l₂ = [] := by
          apply List.eq_nil_of_length_eq_zero
          have hlen := congrArg List.length hsplit
          have hpos := List.length_pos_of_ne_nil hl
          rw [List.length_append] at hlen
          omega
        rw [hsplit, hall, List.append_nil] at hmem
        exact absurd (List.mem_append_left _ hmem) hnot
      · exact ha
    · intro g hg
      cases g with
      | thread u i => rfl
      | returning u i => rfl
      | central i =>
        apply Function.update_of_ne
        rintro rfl
        exact hg rfl
    · intro a _ ha
      exact hframe a (fun hmem => ha (reown_of_mem hmem))
    · have hself : (s.returnRange t start bytes index).head (.central index) = start :=
        Function.update_self _ _ _
      rw [hself]
      exact hsplice
    · intro a ha
      exact List.mem_append_right _ ((hcowned a).mpr ha)
    · intro a ha
      rcases List.mem_append.mp ha with ha | ha
      · exact .inr (reown_of_mem (hsplit ▸ List.mem_append_left _ ha))
      · exact .inl ((hcowned a).mp ha)
  · intro u start' bytes' index' hu
    rcases Classical.em (u = t) with rfl | hne
    · simp [MemoryPool.setCall] at hu
    · simpa only [MemoryPool.setCall, Function.update_of_ne hne] using hu
  · intro g hg
    apply s.head_setCall
    rintro i rfl
    have hi : index ≠ i := fun heq => hg (by rw [heq])
    have hzero := hhead i
    rw [if_neg hi] at hzero
    exact hzero.symm
  · intro a
    rw [← howned a]
    simp
  · simp
  · rw [MemoryPool.head_setCall_self]
    rfl

end Deallocate

/-! ## §4 Runs -/

section Runs

variable [DecidableEq T]

/-- What holds in every reachable state: the locks, the places, and with `covers` that no block
    is loose between two actions. -/
def PoolOk (covers : Prop) (s : MemoryPool T) : Prop :=
  LockInv s ∧ ∃ owner, PoolInv covers s owner ∧ (covers → ∀ a, ¬Loose owner a)

/-- The condition on an action under which no block gets lost. -/
def KeepsBlocks (s : MemoryPool T) : PoolAct T → Prop
  | .deallocate t _ size => size ≤ MAX_BYTES → s.HandsAllBack t size
  | _ => True

omit [DecidableEq T] in
theorem poolOk_start (covers : Prop) (mem : Words) :
    PoolOk covers (MemoryPool.start mem : MemoryPool T) := by
  refine ⟨⟨rfl, fun _ => trivial⟩, fun _ => none, ⟨?_, ?_, ?_, ?_, ?_, ?_, ?_, ?_⟩, ?_⟩
  · intro f
    refine ⟨[], ?_, by simp⟩
    cases f <;> rfl
  · simp [MemoryPool.start]
  · simp [MemoryPool.start]
  · simp [MemoryPool.start]
  · exact Layout.nil
  · simp
  · simp [MemoryPool.start]
  · simp [ReturnsCover, MemoryPool.start]
  · simp [Loose]

/-- **One action of the pool.** It does not fault, and it preserves what holds in every
    reachable state. -/
theorem poolOk_step (h : PoolOk covers s) {a : PoolAct T}
    (henabled : (memoryPoolMachine T).enabled s a = true) (hkeeps : covers → KeepsBlocks s a) :
    ∃ s', (memoryPoolMachine T).step s a = some s' ∧ PoolOk covers s' := by
  obtain ⟨hlocks, owner, hinv, hnone⟩ := h
  -- the new state with its places is enough: the locks are a separate invariant
  suffices hstep : ∃ s' owner', (memoryPoolMachine T).step s a = some s' ∧
      PoolInv covers s' owner' ∧ (covers → ∀ a, Loose owner' a → Loose owner a) by
    obtain ⟨s', owner', hs', hinv', hloose⟩ := hstep
    exact ⟨s', hs', lockInv_step hlocks henabled hs', owner', hinv',
      fun hcovers a ha => hnone hcovers a (hloose hcovers a ha)⟩
  cases a with
  | allocate t size =>
    obtain ⟨owner', hinv', hloose⟩ := hinv.allocate size (of_decide_eq_true henabled)
    exact ⟨_, owner', rfl, hinv', fun _ => hloose⟩
  | fetchRange t =>
    obtain ⟨index, size, hcall, -⟩ := fetchRange_enabled henabled
    obtain ⟨owner', hinv', hloose⟩ := hinv.fetchRange hlocks hcall
    refine ⟨_, owner', ?_, hinv', fun _ => hloose⟩
    simp only [memoryPoolMachine, hcall]
  | allocateSpan t mmap =>
    obtain ⟨index, size, hcall, hmmap⟩ := allocateSpan_enabled henabled
    obtain ⟨s', owner', hs', hinv', hloose⟩ := hinv.allocateSpan hlocks hcall hmmap
    refine ⟨s', owner', ?_, hinv', fun _ => hloose⟩
    simp only [memoryPoolMachine, hcall]
    exact hs'
  | deallocate t ptr size =>
    simp only [memoryPoolMachine, Bool.and_eq_true, decide_eq_true_eq] at henabled
    obtain ⟨hidle, hlive⟩ := henabled
    have hsame : size ≤ MAX_BYTES → ∃ b ∈ s.live, b.1 = ptr ∧ getIndex b.2 = getIndex size := by
      intro hsize
      rw [if_neg (Nat.not_lt.mpr hsize)] at hlive
      obtain ⟨b, hb, heq⟩ := List.any_eq_true.mp hlive
      exact ⟨b, hb, by simpa using heq⟩
    obtain ⟨owner', hinv', hloose⟩ := hinv.deallocate hidle hsame hkeeps
    exact ⟨_, owner', rfl, hinv', fun _ => hloose⟩
  | returnRange t =>
    obtain ⟨start, bytes, index, hcall, -⟩ := returnRange_enabled henabled
    obtain ⟨owner', hinv', hloose⟩ := hinv.returnRange hlocks hcall
    refine ⟨_, owner', ?_, hinv', hloose⟩
    simp only [memoryPoolMachine, hcall]
  | write addr value =>
    simp only [memoryPoolMachine, Bool.and_eq_true] at henabled
    obtain ⟨b, hb, hin⟩ := List.any_eq_true.mp henabled.2
    refine ⟨_, owner, rfl, hinv.write hb (by simpa using hin) value, fun _ _ ha => ha⟩

/-- The invariant is inductive, whatever the counters say. -/
theorem poolOk_invariant (mem : Words) :
    (memoryPoolMachine T).Invariant (.start mem) (PoolOk False) where
  init := poolOk_start False mem
  step := fun _ _ h henabled => poolOk_step h henabled (fun hfalse => hfalse.elim)

end Runs

/-- **No block in two places.** In every state that any number of threads reach by any
    interleaving: live blocks do not overlap, each is large enough for its request and lies in
    one span; every free list is a list without repetition; no block of a free list is live, and
    no two free lists share a block. -/
theorem memoryPool_blocks_separate {T : Type} [DecidableEq T] {mem : Words}
    {acts : List (PoolAct T)} {s : MemoryPool T}
    (h : (memoryPoolMachine T).Reaches (.start mem) acts s) :
    s.live.Pairwise (fun b c =>
      Apart b.1 (8 * (getIndex b.2 + 1)) c.1 (8 * (getIndex c.2 + 1))) ∧
    (∀ b ∈ s.live, b.2 ≤ 8 * (getIndex b.2 + 1) ∧ ∃ r ∈ s.pageCache.mmapped,
      r.1 ≤ b.1 ∧ b.1 + 8 * (getIndex b.2 + 1) ≤ r.1 + r.2 * PAGE_SIZE) ∧
    (∀ f, ∃ l, Chain s.mem 0 (s.head f) l ∧ l.Nodup ∧ ∀ a ∈ l, ∀ b ∈ s.live,
      Apart a (8 * (f.index + 1)) b.1 (8 * (getIndex b.2 + 1))) ∧
    ∀ f g l l', f ≠ g → Chain s.mem 0 (s.head f) l → Chain s.mem 0 (s.head g) l' →
      ∀ a ∈ l, ∀ b ∈ l', Apart a (8 * (f.index + 1)) b (8 * (g.index + 1)) := by
  obtain ⟨-, owner, hinv, -⟩ := Machine.invariant_reaches (poolOk_invariant mem) h
  have hsize : ∀ index, 8 * (index + 1) = blockSize index := fun index => Nat.mul_comm _ _
  simp only [hsize]
  -- blocks of different places are different blocks, and these do not overlap
  have hapart : ∀ a b p q, owner a = some p → owner b = some q → a ≠ b →
      Apart a (blockSize p.index) b (blockSize q.index) :=
    fun a b p q ha hb => hinv.layout.apart a b _ _ (PoolInv.layout_size ha) (PoolInv.layout_size hb)
  have hne : ∀ a b p q, owner a = some p → owner b = some q → p ≠ q → a ≠ b := by
    rintro a b p q ha hb hpq rfl
    rw [ha, Option.some.injEq] at hb
    exact hpq hb
  refine ⟨?_, ?_, ?_, ?_⟩
  · have honce : s.live.Pairwise (fun b c => b.1 ≠ c.1) := List.pairwise_map.mp hinv.once
    refine honce.imp_of_mem ?_
    intro b c hb hc hbc
    have hblocks := hapart b.1 c.1 _ _ (hinv.owner_live hb) (hinv.owner_live hc) hbc
    exact hblocks
  · intro b hb
    refine ⟨le_blockSize b.2, ?_⟩
    obtain ⟨r, hr, hlo, hhi⟩ := hinv.layout.inside b.1 _ (PoolInv.layout_size (hinv.owner_live hb))
    obtain ⟨r', hr', rfl⟩ := List.mem_map.mp hr
    exact ⟨r', hr', hlo, hhi⟩
  · intro f
    obtain ⟨l, hchain, howned⟩ := hinv.lists f
    refine ⟨l, hchain, hchain.nodup, ?_⟩
    intro a ha b hb
    have hfree := (howned a).mp ha
    have hlive := hinv.owner_live hb
    have hblocks := hapart a b.1 _ _ hfree hlive (hne a b.1 _ _ hfree hlive (by simp))
    exact hblocks
  · intro f g l l' hfg hl hl' a ha b hb
    have hf := (hinv.lists.mem_iff hl a).mp ha
    have hg := (hinv.lists.mem_iff hl' b).mp hb
    have hblocks := hapart a b _ _ hf hg (hne a b _ _ hf hg (by simpa using hfg))
    exact hblocks

/-- Two threads share a span: one takes two blocks and gives its second one back, the other
    gives back the first one and takes it again. -/
def crossFreeRun : List (PoolAct Bool) :=
  [.allocate true 5000, .fetchRange true, .allocateSpan true (some 65536), .allocate true 5000,
    .write 70544 77, .deallocate false 65536 5000, .deallocate true 70536 4999,
    .allocate false 4998, .allocate true 4997]

theorem crossFreeRun_blocks_separate :
    ∃ s, (memoryPoolMachine Bool).Reaches (.start (fun _ => 7)) crossFreeRun s ∧
      s.live = [(70536, 4997), (65536, 4998)] ∧
      s.live.Pairwise (fun b c =>
        Apart b.1 (8 * (getIndex b.2 + 1)) c.1 (8 * (getIndex c.2 + 1))) := by
  have hrun : ((memoryPoolMachine Bool).run (.start (fun _ => 7)) crossFreeRun).map
      (fun s => s.live) = some [(70536, 4997), (65536, 4998)] := by decide +kernel
  obtain ⟨s, hs, hlive⟩ := Option.map_eq_some_iff.mp hrun
  have hreach := Machine.reaches_of_run hs
  exact ⟨s, hreach, hlive, (memoryPool_blocks_separate hreach).1⟩

end RainWebServer.Memory
