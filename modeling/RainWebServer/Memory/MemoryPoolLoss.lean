import RainWebServer.Memory.MemoryPoolRuns

/-!
# MemoryPool: When a Block Is Lost

`returnToCentralCache` cuts a list by a count of blocks and tells `returnRange` a number of bytes,
which `returnRange` takes for a count of blocks when it looks for the end of the list. With a
block size of at least one aligned word the number is large enough as long as the counter of the
thread is not far below the length of its list. With size 0, for which `roundUp` gives 0 although
`allocate` and `getIndex` serve it as one word, the search stops at the first block and the
others are lost.

## Main results

- `memoryPool_no_block_lost` : no run whose `deallocate` calls meet `HandsAllBack` loses a block
- `zeroSizeRun_loses` : two threads that allocate and free blocks of size 0 lose 48 of them
-/

namespace RainWebServer.Memory

open RainWebServer.Lib SizeClass

variable {T : Type} [DecidableEq T]

/-! ## §1 Runs that lose nothing -/

/-- The block at `a`, of the given size class, is live or an element of a list: of a thread, of
    the central cache, or of a call of `returnRange` that waits for its lock. -/
def MemoryPool.Placed (s : MemoryPool T) (index : Nat) (a : Addr) : Prop :=
  (∃ size, (a, size) ∈ s.live ∧ getIndex size = index) ∨
  (∃ t l, Chain s.mem 0 ((s.threads t).freeList_ index) l ∧ a ∈ l) ∨
  (∃ l, Chain s.mem 0 (s.centralCache.centralFreeList_ index) l ∧ a ∈ l) ∨
  ∃ t start bytes l, s.calls t = .returnRange start bytes index ∧ Chain s.mem 0 start l ∧ a ∈ l

omit [DecidableEq T] in
/-- A block whose place is not loose is there. -/
theorem PoolInv.placed {covers : Prop} {s : MemoryPool T} {owner : Addr → Option (Place T)}
    (h : PoolInv covers s owner) {a : Addr} {p : Place T} (ha : owner a = some p)
    (hloose : ¬Loose owner a) : s.Placed p.index a := by
  cases p with
  | live index => exact .inl ((h.live a index).mp ha)
  | loose index => exact absurd ⟨index, ha⟩ hloose
  | free f =>
    obtain ⟨l, hchain, howned⟩ := h.lists f
    have hmem := (howned a).mpr ha
    cases f with
    | thread t index => exact .inr (.inl ⟨t, l, hchain, hmem⟩)
    | central index => exact .inr (.inr (.inl ⟨l, hchain, hmem⟩))
    | returning t index =>
      -- the list is not empty, so the call is one of `returnRange` with this class
      have hhead : (s.calls t).list index ≠ 0 := by
        intro hzero
        rw [MemoryPool.head, hzero] at hchain
        rw [hchain.eq_nil] at hmem
        cases hmem
      cases hcall : s.calls t with
      | returnRange start bytes i =>
        rw [hcall, PoolCall.list] at hhead
        split at hhead
        · rename_i hi
          subst hi
          refine .inr (.inr (.inr ⟨t, start, bytes, l, hcall, ?_, hmem⟩))
          rwa [MemoryPool.head, hcall, PoolCall.list, if_pos rfl] at hchain
        · exact absurd rfl hhead
      | _ =>
        rw [hcall] at hhead
        exact absurd rfl hhead

/-- **No block is lost** in a run whose `deallocate` calls meet `HandsAllBack` in the state before
    them: every block of every span that was carved is live or on a list. -/
theorem memoryPool_no_block_lost {mem : Words} {acts : List (PoolAct T)} {s : MemoryPool T}
    (h : (memoryPoolMachine T).ReachesAlong KeepsBlocks (.start mem) acts s) :
    ∀ span ∈ s.carved, ∀ i < CentralCache.blockCount (blockSize span.2),
      s.Placed span.2 (span.1 + i * blockSize span.2) := by
  have hok : PoolOk True s := by
    refine Machine.invariant_reaches_along (poolOk_start True mem) ?_ h
    intro t a u ht henabled hkeeps hstep
    obtain ⟨u', hu', hok⟩ := poolOk_step ht henabled (fun _ => hkeeps)
    rw [hstep, Option.some.injEq] at hu'
    exact hu' ▸ hok
  obtain ⟨-, owner, hinv, hnone⟩ := hok
  intro span hspan i hi
  have hmem : span.1 + i * blockSize span.2 ∈ spanBlocks span :=
    CentralCache.mem_blocks.mpr ⟨i, Nat.zero_le i, by rwa [Nat.zero_add], rfl⟩
  obtain ⟨p, hp, hindex⟩ := hinv.carved span hspan _ hmem
  have hplaced := hinv.placed hp (hnone trivial _)
  rwa [hindex] at hplaced

/-- A decidable condition that is enough: the counter does not go above the threshold. -/
def lowCounter (s : MemoryPool T) : PoolAct T → Bool
  | .deallocate t _ size => sizeT ((s.threads t).freeListSize_ (getIndex size) + 1) ≤ 64
  | _ => true

omit [DecidableEq T] in
theorem keepsBlocks_of_lowCounter (s : MemoryPool T) (a : PoolAct T) (h : lowCounter s a = true) :
    KeepsBlocks s a := by
  cases a with
  | deallocate t ptr size =>
    intro _ l _
    have hle := of_decide_eq_true h
    exact fun hgt => absurd hle (Nat.not_le.mpr hgt)
  | _ => trivial

/-- One thread takes a block of a new span and gives it back. -/
theorem shortRun_no_block_lost :
    ∃ s, (memoryPoolMachine Unit).ReachesAlong KeepsBlocks (.start (fun _ => 7))
        [.allocate () 5000, .fetchRange (), .allocateSpan () (some 65536),
          .deallocate () 65536 5000] s ∧
      s.carved = [(65536, 624)] ∧
      ∀ i < CentralCache.blockCount (blockSize 624), s.Placed 624 (65536 + i * blockSize 624) := by
  have hrun : ((memoryPoolMachine Unit).runAlong lowCounter (.start (fun _ => 7))
      [.allocate () 5000, .fetchRange (), .allocateSpan () (some 65536),
        .deallocate () 65536 5000]).map (fun s => s.carved) = some [(65536, 624)] := by
    decide +kernel
  obtain ⟨s, hs, hcarved⟩ := Option.map_eq_some_iff.mp hrun
  have hreach := (Machine.reachesAlong_of_runAlong hs).mono keepsBlocks_of_lowCounter
  refine ⟨s, hreach, hcarved, ?_⟩
  exact memoryPool_no_block_lost hreach (65536, 624) (by rw [hcarved]; exact List.mem_cons_self)

/-! ## §2 Blocks of size 0 -/

/-- The memory after a span of one-word blocks at `65536` was cut into a batch of 64 blocks and
    the rest, if it was zero before. -/
def linkedWords : Words := fun (a : Nat) =>
  if 65536 ≤ a ∧ a < 98304 ∧ a % 8 = 0 ∧ a ≠ 66040 ∧ a ≠ 98296 then a + 8 else 0

/-- The words of the blocks of the span, by their addresses. -/
theorem mem_blocks_words {i n a : Nat} :
    a ∈ CentralCache.blocks 65536 8 i n ↔
      65536 + i * 8 ≤ a ∧ a < 65536 + (i + n) * 8 ∧ a % 8 = 0 := by
  rw [CentralCache.mem_blocks]
  constructor
  · rintro ⟨k, hlo, hhi, rfl⟩
    omega
  · rintro ⟨hlo, hhi, hmod⟩
    exact ⟨(a - 65536) / 8, by omega, by omega, by omega⟩

/-- The two loops over the 4096 blocks of the span, as one function. -/
theorem linkBlocks_words (a : Nat) :
    Function.update (CentralCache.linkBlocks 65536 8 (64 + 1) 4031
      (Function.update (CentralCache.linkBlocks 65536 8 (0 + 1) 63 (fun _ => 0)) 66040 0))
      98296 0 a = linkedWords a := by
  unfold linkedWords
  rcases Nat.decEq a 98296 with hlast | rfl
  · rw [Function.update_of_ne hlast]
    rcases Classical.em (a ∈ CentralCache.blocks 65536 8 64 4031) with hrest | hrest
    · rw [CentralCache.linkBlocks_apply hrest, if_pos]
      rw [mem_blocks_words] at hrest
      omega
    · rw [CentralCache.linkBlocks_of_not_mem hrest]
      rw [mem_blocks_words] at hrest
      rcases Nat.decEq a 66040 with hmid | rfl
      · rw [Function.update_of_ne hmid]
        rcases Classical.em (a ∈ CentralCache.blocks 65536 8 0 63) with hfirst | hfirst
        · rw [CentralCache.linkBlocks_apply hfirst, if_pos]
          rw [mem_blocks_words] at hfirst
          omega
        · rw [CentralCache.linkBlocks_of_not_mem hfirst, if_neg]
          rw [mem_blocks_words] at hfirst
          omega
      · rfl
  · rfl

theorem carveSpan_words :
    CentralCache.carveSpan (memsetZero (fun _ => 0) 65536
      (sizeOfPages (CentralCache.spanPages (blockSize 0)))) 65536 (blockSize 0)
      (ThreadCache.getBatchNum (blockSize 0)) = (linkedWords, some 66048) := by
  have hzero : memsetZero (fun _ => 0) 65536
      (sizeOfPages (CentralCache.spanPages (blockSize 0))) = fun _ => 0 := by
    funext a
    exact ite_self 0
  have hwords := funext linkBlocks_words
  rw [hzero, ← hwords]
  rfl

/-- Two threads take a block of size 0 each, and the first one gives both back. -/
def zeroSizeRun : List (PoolAct Bool) :=
  [.allocate true 0, .fetchRange true, .allocateSpan true (some 65536),
    .allocate false 0, .fetchRange false, .deallocate true 65536 0, .deallocate true 66048 0,
    .returnRange true]

/-- The state once the span has arrived. -/
def zeroSizeSpan : MemoryPool Bool :=
  let s : MemoryPool Bool := ((MemoryPool.start (fun _ => 0)).allocate true 0).fetchRange true 0 0
  let s : MemoryPool Bool := { s with
    mem := linkedWords
    pageCache := s.pageCache.recordSpan 65536 8
    carved := [(65536, 0)] }
  ((s.setLock 0 false).setCentral 0 66048).deliver true 0 0 65536

/-- A span that leaves blocks for the central list. -/
theorem allocateSpan_of_carve (s : MemoryPool T) (t : T) (size : Nat) {index memory rest : Nat}
    {mem' : Words} (hfree : s.pageCache.freeSpans_ = ∅)
    (hcarve : CentralCache.carveSpan
      (memsetZero s.mem memory (sizeOfPages (CentralCache.spanPages (blockSize index)))) memory
      (blockSize index) (ThreadCache.getBatchNum (blockSize index)) = (mem', some rest)) :
    s.allocateSpan t index size (some memory) =
      some ((({ s with
        mem := mem'
        pageCache := s.pageCache.recordSpan memory (CentralCache.spanPages (blockSize index))
        carved := (memory, index) :: s.carved }.setLock index false).setCentral index rest).deliver
          t index size memory) := by
  unfold MemoryPool.allocateSpan CentralCache.fetchFromPageCache
  rw [PageCache.allocateSpan_of_freeSpans_nil _ _ _ hfree]
  simp only [Option.map_some, MemoryPool.setLock, hcarve]

/-- What is left after the run, on which the block `65664` is lost: no list starts with it and no
    block of the span links to it. -/
def lostAfter (s : MemoryPool Bool) : Bool :=
  decide (s.live = []) && decide (s.carved = [(65536, 0)]) &&
  decide (s.pageCache.mmapped = [(65536, 8)]) &&
  [true, false].all (fun t => decide (s.calls t = .idle) && (s.threads t).freeList_ 0 != 65664) &&
  s.centralCache.centralFreeList_ 0 != 65664 &&
  (List.range 4096).all (fun k => s.mem (65536 + 8 * k) != 65664)

theorem lostAfter_zeroSizeRun :
    ((memoryPoolMachine Bool).run zeroSizeSpan (zeroSizeRun.drop 3)).map lostAfter = some true := by
  decide +kernel

/-- The words of the span, by their numbers. -/
theorem word_of_aligned {b : Nat} (hlo : 65536 ≤ b) (hhi : b < 65536 + 32768) (hmod : b % 8 = 0) :
    ∃ k < 4096, b = 65536 + 8 * k :=
  ⟨(b - 65536) / 8, by omega, by omega⟩

/-- **Blocks of size 0 get lost.** After the run no call is in progress, and the block `65664` is
    neither live nor on a list. -/
theorem zeroSizeRun_loses :
    ∃ s, (memoryPoolMachine Bool).Reaches (.start (fun _ => 0)) zeroSizeRun s ∧
      (∀ t, s.calls t = .idle) ∧ (65536, 0) ∈ s.carved ∧
      ¬s.Placed 0 (65536 + 16 * blockSize 0) := by
  obtain ⟨s, hs, hlost⟩ := Option.map_eq_some_iff.mp lostAfter_zeroSizeRun
  have hspan := allocateSpan_of_carve
    (((MemoryPool.start (fun _ => 0)).allocate true 0).fetchRange true 0 0) true 0 rfl
    carveSpan_words
  have hreach : (memoryPoolMachine Bool).Reaches (.start (fun _ => 0)) zeroSizeRun s :=
    .cons rfl rfl (.cons rfl rfl (.cons (by decide +kernel) hspan (Machine.reaches_of_run hs)))
  simp only [lostAfter, Bool.and_eq_true, decide_eq_true_eq, List.all_eq_true, List.mem_cons,
    List.not_mem_nil, or_false, forall_eq_or_imp, forall_eq, bne_iff_ne, List.mem_range] at hlost
  obtain ⟨⟨⟨⟨⟨hlive, hcarved⟩, hmmapped⟩, ⟨hidle₁, hhead₁⟩, hidle₀, hhead₀⟩, hcentral⟩,
    hlinks⟩ := hlost
  obtain ⟨-, owner, hinv, -⟩ := Machine.invariant_reaches (poolOk_invariant (fun _ => 0)) hreach
  -- a list that does not start with the block does not have it
  have hlist : ∀ f l, Chain s.mem 0 (s.head f) l → s.head f ≠ 65664 → 65664 ∉ l := by
    intro f l hchain hhead hmem
    rcases hchain.mem_cases hmem with heq | ⟨b, hb, hlink⟩
    · exact hhead heq.symm
    · have howner := (hinv.lists.mem_iff hchain b).mp hb
      obtain ⟨r, hr, hlo, hhi⟩ := hinv.layout.inside b _ (PoolInv.layout_size howner)
      rw [hmmapped] at hr
      obtain rfl : r = (65536, 32768) := List.mem_singleton.mp hr
      obtain ⟨k, hk, rfl⟩ := word_of_aligned hlo
        (Nat.lt_of_lt_of_le (Nat.lt_add_of_pos_right (blockSize_pos _)) hhi)
        (hinv.aligned b _ howner).2
      exact hlinks k hk hlink
  refine ⟨s, hreach, ?_, ?_, ?_⟩
  · intro t
    cases t
    · exact hidle₀
    · exact hidle₁
  · rw [hcarved]
    exact List.mem_cons_self
  · have haddr : 65536 + 16 * blockSize 0 = 65664 := rfl
    rw [haddr]
    rintro (⟨size, hmem, -⟩ | ⟨t, l, hchain, hmem⟩ | ⟨l, hchain, hmem⟩ |
      ⟨t, start, bytes, l, hcall, -⟩)
    · rw [hlive] at hmem
      cases hmem
    · refine hlist (.thread t 0) l hchain ?_ hmem
      cases t
      · exact hhead₀
      · exact hhead₁
    · exact hlist (.central 0) l hchain hcentral hmem
    · cases t
      · rw [hidle₀] at hcall
        cases hcall
      · rw [hidle₁] at hcall
        cases hcall

end RainWebServer.Memory
