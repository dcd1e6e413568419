import RainWebServer.Memory.MemoryPoolRuns

/-!
# MemoryPool: What an Action Leaves Alone

An action of the pool works on one free list of one thread at most. All other free lists of the
threads keep their blocks and their counters, although the action may write into blocks of the
central cache, of a new span or of a user.

## Main results

- `untouched_step` : the lists that an enabled action does not work on
- `untouched_between_calls` : a list of a thread over a run in which the thread starts no call
-/

namespace RainWebServer.Memory

open RainWebServer.Lib SizeClass

/-! ## §1 The members of a thread -/

namespace ThreadCache

/-- The two caches differ in one size class at most. -/
def SameOff (index : Nat) (cache cache' : ThreadCache) : Prop :=
  ∀ i, i ≠ index →
    cache'.freeList_ i = cache.freeList_ i ∧ cache'.freeListSize_ i = cache.freeListSize_ i

variable {index : Nat} {cache cache' cache'' : ThreadCache}

theorem SameOff.refl (index : Nat) (cache : ThreadCache) : SameOff index cache cache :=
  fun _ _ => ⟨rfl, rfl⟩

theorem SameOff.trans (h : SameOff index cache cache') (h' : SameOff index cache' cache'') :
    SameOff index cache cache'' :=
  fun i hi => ⟨(h' i hi).1.trans (h i hi).1, (h' i hi).2.trans (h i hi).2⟩

theorem sameOff_setFreeList (cache : ThreadCache) (index : Nat) (head : Addr) :
    SameOff index cache (cache.setFreeList index head) :=
  fun _ hi => ⟨Function.update_of_ne hi _ _, rfl⟩

theorem sameOff_setFreeListSize (cache : ThreadCache) (index size : Nat) :
    SameOff index cache (cache.setFreeListSize index size) :=
  fun _ hi => ⟨rfl, Function.update_of_ne hi _ _⟩

theorem sameOff_takeRange (cache : ThreadCache) (mem : Words) (index : Nat) (start : Addr) :
    SameOff index cache (cache.takeRange mem index start) := by
  unfold takeRange
  have hcount := sameOff_setFreeListSize cache index
    (cache.freeListSize_ index + getBatchNum (blockSize index))
  simp only []
  split
  · exact hcount.trans (sameOff_setFreeList _ _ _)
  · exact hcount

theorem sameOff_push (cache : ThreadCache) (mem : Words) (index : Nat) (ptr : Addr) :
    SameOff index cache (cache.push mem index ptr).2 :=
  (sameOff_setFreeList cache index ptr).trans (sameOff_setFreeListSize _ _ _)

theorem sameOff_returnToCentralCache (cache : ThreadCache) (mem : Words) (start : Addr)
    (size : Nat) : SameOff (getIndex size) cache
      (cache.returnToCentralCache mem start size).2.1 := by
  unfold returnToCentralCache
  simp only []
  split
  · exact .refl _ _
  · split
    · exact .refl _ _
    · exact (sameOff_setFreeList _ _ _).trans (sameOff_setFreeListSize _ _ _)

end ThreadCache

/-! ## §2 The threads after an action -/

variable {T : Type}

/-- The action works on the list of class `i` of the thread `u`. -/
def Touches (s : MemoryPool T) (u : T) (i : Nat) : PoolAct T → Prop
  | .allocate t size | .deallocate t _ size => u = t ∧ i = getIndex size
  | .fetchRange t => u = t ∧ ∃ size, s.calls t = .fetchRange i size
  | .allocateSpan t _ => u = t ∧ ∃ size, s.calls t = .allocateSpan i size
  | .returnRange _ | .write _ _ => False

/-- The members of the class `i` of the thread `u` are as before. -/
def SameClass (s s' : MemoryPool T) (u : T) (i : Nat) : Prop :=
  (s'.threads u).freeList_ i = (s.threads u).freeList_ i ∧
    (s'.threads u).freeListSize_ i = (s.threads u).freeListSize_ i

variable [DecidableEq T] {s s' : MemoryPool T} {u : T} {i : Nat}

/-- The cache of one thread is changed in one class. -/
theorem sameClass_of_update {t : T} {index : Nat} {cache : ThreadCache}
    (hthreads : s'.threads = Function.update s.threads t cache)
    (hoff : ThreadCache.SameOff index (s.threads t) cache) (hne : ¬(u = t ∧ i = index)) :
    SameClass s s' u i := by
  unfold SameClass
  rw [hthreads]
  -- another class of the same thread, or another thread altogether
  rcases Classical.em (u = t) with rfl | hu
  · rw [Function.update_self]
    exact hoff i fun hi => hne ⟨rfl, hi⟩
  · rw [Function.update_of_ne hu]
    exact ⟨rfl, rfl⟩

theorem sameClass_allocate (s : MemoryPool T) {t : T} {size : Nat}
    (hne : ¬(u = t ∧ i = getIndex size)) : SameClass s (s.allocate t size) u i := by
  have hbytes : getIndex (if size = 0 then ALIGNMENT else size) = getIndex size :=
    (getIndex_request size).1
  have hcount := ThreadCache.sameOff_setFreeListSize (s.threads t) (getIndex size)
    ((s.threads t).freeListSize_ (getIndex size) + (2 ^ 64 - 1))
  unfold MemoryPool.allocate
  generalize (if size = 0 then ALIGNMENT else size) = bytes at hbytes ⊢
  simp only [hbytes]
  split
  · exact ⟨rfl, rfl⟩
  · split
    · -- the block comes from the thread's own list
      exact sameClass_of_update rfl (hcount.trans (ThreadCache.sameOff_setFreeList _ _ _)) hne
    · split
      · exact sameClass_of_update rfl hcount hne
      · exact sameClass_of_update rfl hcount hne

theorem sameClass_fetchRange (s : MemoryPool T) {t : T} {index : Nat} (size : Nat)
    (hne : ¬(u = t ∧ i = index)) : SameClass s (s.fetchRange t index size) u i := by
  unfold MemoryPool.fetchRange
  simp only []
  split
  · exact ⟨rfl, rfl⟩
  · exact sameClass_of_update rfl (ThreadCache.sameOff_takeRange _ _ _ _) hne

theorem sameClass_allocateSpan {t : T} {index size : Nat} {mmap : Option Addr}
    (hstep : s.allocateSpan t index size mmap = some s') (hne : ¬(u = t ∧ i = index)) :
    SameClass s s' u i := by
  obtain ⟨⟨mem, pageCache, start⟩, -, rfl⟩ := Option.map_eq_some_iff.mp hstep
  simp only []
  cases start with
  | none => exact ⟨rfl, rfl⟩
  | some start =>
    simp only []
    split
    · exact sameClass_of_update rfl (ThreadCache.sameOff_takeRange _ _ _ _) hne
    · exact sameClass_of_update rfl (ThreadCache.sameOff_takeRange _ _ _ _) hne

/-- The cache of the thread after `giveBack`, whether or not `returnRange` is called. -/
theorem threads_giveBack (s : MemoryPool T) (t : T) (size : Nat) :
    (s.giveBack t size).threads = Function.update s.threads t
      ((s.threads t).returnToCentralCache s.mem ((s.threads t).freeList_ (getIndex size))
        size).2.1 := by
  unfold MemoryPool.giveBack
  simp only []
  split
  · rfl
  · split
    · rfl
    · rfl

theorem sameClass_deallocate (s : MemoryPool T) {t : T} (ptr : Addr) {size : Nat}
    (hne : ¬(u = t ∧ i = getIndex size)) : SameClass s (s.deallocate t ptr size) u i := by
  unfold MemoryPool.deallocate
  split
  · exact ⟨rfl, rfl⟩
  · have hpush : SameClass s (s.pushBlock t ptr (getIndex size)) u i :=
      sameClass_of_update rfl (ThreadCache.sameOff_push _ s.mem _ _) hne
    simp only []
    split
    · have hgive : SameClass (s.pushBlock t ptr (getIndex size))
          ((s.pushBlock t ptr (getIndex size)).giveBack t size) u i :=
        sameClass_of_update (threads_giveBack _ t size)
          (ThreadCache.sameOff_returnToCentralCache _ _ _ _) hne
      exact ⟨hgive.1.trans hpush.1, hgive.2.trans hpush.2⟩
    · exact hpush

/-- The members of the classes that an action does not work on. -/
theorem sameClass_step {a : PoolAct T} (hstep : (memoryPoolMachine T).step s a = some s')
    (hne : ¬Touches s u i a) : SameClass s s' u i := by
  cases poolStep_of_step hstep with
  | allocate t size => exact sameClass_allocate s hne
  | @fetchRange t index size hcall =>
    refine sameClass_fetchRange s size fun heq => hne ⟨heq.1, size, ?_⟩
    rw [heq.2]
    exact hcall
  | @allocateSpan t index size mmap s' hcall hspan =>
    refine sameClass_allocateSpan hspan fun heq => hne ⟨heq.1, size, ?_⟩
    rw [heq.2]
    exact hcall
  | deallocate t ptr size => exact sameClass_deallocate s ptr hne
  | returnRange hcall => exact ⟨rfl, rfl⟩
  | write addr value => exact ⟨rfl, rfl⟩

/-! ## §3 The memory after an action -/

/-- What `allocateSpan` leaves when `mmap` fails. -/
theorem allocateSpan_none (s : MemoryPool T) (t : T) (index size : Nat)
    (hfree : s.pageCache.freeSpans_ = ∅) :
    s.allocateSpan t index size none = some ((s.setLock index false).setCall t .idle) := by
  unfold MemoryPool.allocateSpan CentralCache.fetchFromPageCache
  rw [PageCache.allocateSpan_of_freeSpans_nil _ _ _ hfree]
  rfl

/-- The memory, the threads and their calls when a new span has come. -/
theorem allocateSpan_some {t : T} {index size memory : Nat} (hfree : s.pageCache.freeSpans_ = ∅)
    (hstep : s.allocateSpan t index size (some memory) = some s') :
    s'.mem = (carvedSpan s.mem memory index).1 ∧
      s'.threads = Function.update s.threads t
        ((s.threads t).takeRange (carvedSpan s.mem memory index).1 index memory) ∧
      s'.calls = Function.update s.calls t .idle := by
  unfold MemoryPool.allocateSpan CentralCache.fetchFromPageCache at hstep
  rw [PageCache.allocateSpan_of_freeSpans_nil _ _ _ hfree] at hstep
  cases hstep
  simp only []
  split
  · exact ⟨rfl, rfl, rfl⟩
  · exact ⟨rfl, rfl, rfl⟩

variable {covers : Prop} {owner : Addr → Option (Place T)}

/-- The list of class `i` of the thread `u` and its counter are as before. -/
structure Untouched (s s' : MemoryPool T) (u : T) (i : Nat) : Prop where
  counter : (s'.threads u).freeListSize_ i = (s.threads u).freeListSize_ i
  list : ∀ l, Chain s.mem 0 ((s.threads u).freeList_ i) l →
    Chain s'.mem 0 ((s'.threads u).freeList_ i) l

omit [DecidableEq T] in
theorem Untouched.refl (s : MemoryPool T) (u : T) (i : Nat) : Untouched s s u i :=
  ⟨rfl, fun _ hl => hl⟩

omit [DecidableEq T] in
theorem Untouched.trans {s'' : MemoryPool T} (h : Untouched s s' u i)
    (h' : Untouched s' s'' u i) : Untouched s s'' u i :=
  ⟨h'.counter.trans h.counter, fun l hl => h'.list l (h.list l hl)⟩

omit [DecidableEq T] in
/-- The members are as before, and no block of the list is written. -/
theorem PoolInv.untouched (h : PoolInv covers s owner) (hclass : SameClass s s' u i)
    (hmem : ∀ a, owner a = some (.free (.thread u i)) → s'.mem a = s.mem a) :
    Untouched s s' u i := by
  refine ⟨hclass.2, fun l hl => ?_⟩
  rw [hclass.1]
  exact hl.congr fun a ha => hmem a ((h.lists.mem_iff (f := .thread u i) hl a).mp ha)

theorem mem_allocate (s : MemoryPool T) (t : T) (size : Nat) : (s.allocate t size).mem = s.mem := by
  unfold MemoryPool.allocate
  generalize (if size = 0 then ALIGNMENT else size) = bytes
  simp only []
  split
  · rfl
  · split
    · rfl
    · split
      · rfl
      · rfl

/-- `fetchRange` writes into a block of the central list. -/
theorem PoolInv.mem_fetchRange (h : PoolInv covers s owner) {t : T} {index size : Nat} {a : Addr}
    (ha : owner a ≠ some (.free (.central index))) :
    (s.fetchRange t index size).mem a = s.mem a := by
  unfold MemoryPool.fetchRange
  simp only []
  split
  · rfl
  · rename_i hresult
    -- the batch ends with a block that was the central list's
    obtain ⟨l, hchain, howned⟩ := h.lists (.central index)
    have hne : l ≠ [] := by
      rintro rfl
      exact hresult hchain
    obtain ⟨l₁, l₂, -, -, -, -, hframe⟩ := CentralCache.takeBatch_spec hchain hne
      (Nat.lt_trans Nat.zero_lt_one (ThreadCache.lt_getBatchNum (blockSize index)))
    exact hframe a fun hmem => ha ((howned a).mp hmem)

/-- The memory after `giveBack`, whether or not `returnRange` is called. -/
theorem mem_giveBack (s : MemoryPool T) (t : T) (size : Nat) :
    (s.giveBack t size).mem =
      ((s.threads t).returnToCentralCache s.mem ((s.threads t).freeList_ (getIndex size))
        size).1 := by
  unfold MemoryPool.giveBack
  simp only []
  split
  · rfl
  · split
    · rfl
    · rfl

/-- `giveBack` writes into a block of the list that it cuts. -/
theorem mem_giveBack_of_not_mem {t : T} {size : Nat} {l : List Addr}
    (hchain : Chain s.mem 0 ((s.threads t).freeList_ (getIndex size)) l) (hne : l ≠ []) {a : Addr}
    (ha : a ∉ l) : (s.giveBack t size).mem a = s.mem a := by
  rw [mem_giveBack]
  rcases ThreadCache.returnToCentralCache_spec hchain hne with ⟨heq, -⟩ | hcut
  · rw [heq]
  · -- the link of the last block that stays is cleared
    obtain ⟨l₁, l₂, mem', cache', call, heq, -, -, -, -, -, -, -, hframe⟩ := hcut
    rw [heq]
    exact hframe a ha

/-- `deallocate` writes into the freed block and into a block of the list that it cuts. -/
theorem PoolInv.mem_deallocate (h : PoolInv covers s owner) {t : T} {b : Addr × Nat} {size : Nat}
    (hb : b ∈ s.live) {a : Addr} (hne : a ≠ b.1)
    (ha : owner a ≠ some (.free (.thread t (getIndex size)))) :
    (s.deallocate t b.1 size).mem a = s.mem a := by
  unfold MemoryPool.deallocate
  split
  · rfl
  · have hpush : (s.pushBlock t b.1 (getIndex size)).mem a = s.mem a :=
        Function.update_of_ne hne _ _
    simp only []
    split
    · -- `giveBack` finds the freed block in front of the list
      obtain ⟨l, hchain, howned⟩ := h.lists (.thread t (getIndex size))
      have hpushed := chain_pushBlock s t (h.aligned _ _ (h.owner_live hb)).1 hchain
        (h.live_not_mem hb hchain)
      rw [mem_giveBack_of_not_mem hpushed (List.cons_ne_nil _ _), hpush]
      rw [List.mem_cons, not_or]
      exact ⟨hne, fun hmem => ha ((howned a).mp hmem)⟩
    · exact hpush

/-- `returnRange` writes into a block of the list that it returns. -/
theorem PoolInv.mem_returnRange (h : PoolInv covers s owner) (hlocks : LockInv s) {t : T}
    {start : Addr} {bytes index : Nat} (hcall : s.calls t = .returnRange start bytes index)
    {a : Addr}
    (ha : owner a ≠ some (.free (.returning t index))) :
    (s.returnRange t start bytes index).mem a = s.mem a := by
  have hstart : start ≠ 0 := hlocks.call hcall
  obtain ⟨l, hchain, howned⟩ := h.lists (.returning t index)
  have hhead : s.head (.returning t index) = start := by
    rw [MemoryPool.head, hcall, PoolCall.list, if_pos rfl]
  rw [hhead] at hchain
  have hne : l ≠ [] := by
    rintro rfl
    exact hstart hchain
  -- the last block that is walked to gets the central list behind it
  obtain ⟨l₁, l₂, hl, -⟩ := CentralCache.findEnd_spec (n := bytes - 1) hchain hne
  apply Function.update_of_ne
  rintro rfl
  refine ha ((howned _).mp ?_)
  rw [hl]
  simp

/-- **What an action leaves alone.** The lists of the threads that it does not work on have the
    same blocks and counters. -/
theorem untouched_step (hok : PoolOk covers s) {a : PoolAct T}
    (henabled : (memoryPoolMachine T).enabled s a = true)
    (hstep : (memoryPoolMachine T).step s a = some s') (hne : ¬Touches s u i a) :
    Untouched s s' u i := by
  obtain ⟨hlocks, owner, h, -⟩ := hok
  refine h.untouched (sameClass_step hstep hne) fun b hb => ?_
  cases poolStep_of_step hstep with
  | allocate t size => rw [mem_allocate]
  | fetchRange hcall =>
    apply h.mem_fetchRange
    rw [hb]
    simp
  | @allocateSpan t index size mmap s' hcall hspan =>
    simp only [memoryPoolMachine, hcall] at henabled
    cases mmap with
    | none =>
      -- nothing is written
      rw [allocateSpan_none _ _ _ _ hlocks.freeSpans, Option.some.injEq] at hspan
      rw [← hspan]
      rfl
    | some memory =>
      -- only the new span is written, and no list has its words
      obtain ⟨hmem, -⟩ := allocateSpan_some hlocks.freeSpans hspan
      obtain ⟨-, -, -, -, -, -, -, hframe⟩ :=
        carvedSpan_spec s.mem (hlocks.index_lt hcall) (ne_zero_of_mmap henabled)
      rw [hmem]
      exact hframe b (h.not_in_new_region (hlocks.index_lt hcall) henabled hb)
  | deallocate t ptr size =>
    simp only [memoryPoolMachine, Bool.and_eq_true, decide_eq_true_eq] at henabled
    rcases Nat.lt_or_ge MAX_BYTES size with hbig | hsmall
    · rw [MemoryPool.deallocate, if_pos hbig]
    · obtain ⟨-, hlive⟩ := henabled
      rw [if_neg (Nat.not_lt.mpr hsmall)] at hlive
      obtain ⟨c, hc, heq⟩ := List.any_eq_true.mp hlive
      simp only [Bool.and_eq_true, decide_eq_true_eq] at heq
      obtain ⟨rfl, -⟩ := heq
      refine h.mem_deallocate hc ?_ ?_
      · -- a user does not hold a block of a list
        rintro rfl
        rw [h.owner_live hc] at hb
        cases hb
      · rw [hb]
        intro heq
        simp only [Option.some.injEq, Place.free.injEq, FreeList.thread.injEq] at heq
        exact hne heq
  | returnRange hcall =>
    apply h.mem_returnRange hlocks hcall
    rw [hb]
    simp
  | write addr value =>
    simp only [memoryPoolMachine, Bool.and_eq_true] at henabled
    obtain ⟨c, hc, hin⟩ := List.any_eq_true.mp henabled.2
    exact Function.update_of_ne (h.live_word_ne hc (by simpa using hin) hb) _ _

/-! ## §4 The actions of other threads -/

omit [DecidableEq T] in
/-- The thread that takes the action; users write. -/
def PoolAct.thread : PoolAct T → Option T
  | .allocate t _ | .fetchRange t | .allocateSpan t _ | .deallocate t _ _ | .returnRange t => some t
  | .write _ _ => none

omit [DecidableEq T] in
theorem not_touches_of_thread_ne {a : PoolAct T} (hne : a.thread ≠ some u) (i : Nat) :
    ¬Touches s u i a := by
  intro htouches
  cases a with
  | returnRange | write => exact htouches
  | _ => exact hne (congrArg some htouches.1.symm)

/-- Another thread's action leaves the cache of `u` alone. -/
theorem threads_step_of_ne {a : PoolAct T} (hstep : (memoryPoolMachine T).step s a = some s')
    (hne : a.thread ≠ some u) : s'.threads u = s.threads u := by
  have hclass := fun i => sameClass_step hstep (not_touches_of_thread_ne (s := s) hne i)
  have hlists : (s'.threads u).freeList_ = (s.threads u).freeList_ := funext fun i => (hclass i).1
  have hsizes : (s'.threads u).freeListSize_ = (s.threads u).freeListSize_ :=
    funext fun i => (hclass i).2
  cases hu : s'.threads u
  cases hu' : s.threads u
  rw [hu, hu'] at hlists hsizes
  exact congrArg₂ ThreadCache.mk hlists hsizes

/-- `allocate` moves the call of its own thread. -/
theorem calls_allocate_of_ne (s : MemoryPool T) {t : T} (size : Nat) (hne : u ≠ t) :
    (s.allocate t size).calls u = s.calls u := by
  unfold MemoryPool.allocate
  generalize (if size = 0 then ALIGNMENT else size) = bytes
  simp only []
  split
  · rfl
  · split
    · rfl
    · split
      · rfl
      · exact Function.update_of_ne hne _ _

theorem calls_fetchRange_of_ne (s : MemoryPool T) {t : T} (index size : Nat) (hne : u ≠ t) :
    (s.fetchRange t index size).calls u = s.calls u := by
  unfold MemoryPool.fetchRange
  simp only []
  split
  · exact Function.update_of_ne hne _ _
  · exact Function.update_of_ne hne _ _

theorem calls_allocateSpan_of_ne {t : T} {index size : Nat} {mmap : Option Addr}
    (hstep : s.allocateSpan t index size mmap = some s') (hne : u ≠ t) :
    s'.calls u = s.calls u := by
  obtain ⟨⟨mem, pageCache, start⟩, -, rfl⟩ := Option.map_eq_some_iff.mp hstep
  simp only []
  cases start with
  | none => exact Function.update_of_ne hne _ _
  | some start =>
    simp only []
    split
    · exact Function.update_of_ne hne _ _
    · exact Function.update_of_ne hne _ _

theorem calls_deallocate_of_ne (s : MemoryPool T) {t : T} (ptr : Addr) (size : Nat) (hne : u ≠ t) :
    (s.deallocate t ptr size).calls u = s.calls u := by
  unfold MemoryPool.deallocate
  split
  · rfl
  · simp only []
    split
    · unfold MemoryPool.giveBack
      simp only []
      split
      · rfl
      · split
        · rfl
        · exact Function.update_of_ne hne _ _
    · rfl

/-- Another thread's action does not move `u` in its call. -/
theorem calls_step_of_ne {a : PoolAct T} (hstep : (memoryPoolMachine T).step s a = some s')
    (hne : a.thread ≠ some u) : s'.calls u = s.calls u := by
  have hother : ∀ t, a.thread = some t → u ≠ t := fun t ht heq => hne (heq ▸ ht)
  cases poolStep_of_step hstep with
  | allocate t size => exact calls_allocate_of_ne s size (hother t rfl)
  | fetchRange hcall => exact calls_fetchRange_of_ne s _ _ (hother _ rfl)
  | allocateSpan hcall hspan => exact calls_allocateSpan_of_ne hspan (hother _ rfl)
  | deallocate t ptr size => exact calls_deallocate_of_ne s ptr size (hother t rfl)
  | returnRange hcall => exact Function.update_of_ne (hother _ rfl) _ _
  | write addr value => rfl

/-! ## §5 Between two calls -/

omit [DecidableEq T] in
/-- The action starts a call of the thread. -/
def StartsCall (t : T) : PoolAct T → Prop
  | .allocate u _ | .deallocate u _ _ => u = t
  | _ => False

omit [DecidableEq T] in
/-- The thread is in no call, or has only to return a list. -/
def Returning (s : MemoryPool T) (t : T) : Prop :=
  s.calls t = .idle ∨ ∃ start bytes index, s.calls t = .returnRange start bytes index

omit [DecidableEq T] in
theorem Returning.not_fetchRange {t : T} (h : Returning s t) (index size : Nat) :
    s.calls t ≠ .fetchRange index size := by
  intro hcall
  rcases h with hidle | ⟨start, bytes, i, hreturn⟩
  · rw [hidle] at hcall
    cases hcall
  · rw [hreturn] at hcall
    cases hcall

omit [DecidableEq T] in
theorem Returning.not_allocateSpan {t : T} (h : Returning s t) (index size : Nat) :
    s.calls t ≠ .allocateSpan index size := by
  intro hcall
  rcases h with hidle | ⟨start, bytes, i, hreturn⟩
  · rw [hidle] at hcall
    cases hcall
  · rw [hreturn] at hcall
    cases hcall

/-- A thread that returns a list and starts no call does nothing else. -/
theorem returning_step {t : T} (h : Returning s t) {a : PoolAct T}
    (hstep : (memoryPoolMachine T).step s a = some s') (hstart : ¬StartsCall t a) :
    Returning s' t ∧ ∀ i, ¬Touches s t i a := by
  rcases Classical.em (a.thread = some t) with hthread | hne
  · cases poolStep_of_step hstep with
    | allocate u size => exact absurd (Option.some.inj hthread) hstart
    | deallocate u ptr size => exact absurd (Option.some.inj hthread) hstart
    | write addr value => cases hthread
    | fetchRange hcall =>
      cases hthread
      exact absurd hcall (h.not_fetchRange _ _)
    | allocateSpan hcall hspan =>
      cases hthread
      exact absurd hcall (h.not_allocateSpan _ _)
    | returnRange hcall =>
      cases hthread
      -- after the return it is in no call
      exact ⟨.inl (Function.update_self _ _ _), fun _ htouches => htouches⟩
  · refine ⟨?_, not_touches_of_thread_ne hne⟩
    unfold Returning
    rw [calls_step_of_ne hstep hne]
    exact h

/-- **Between two calls.** While a thread starts no call, whatever the others do, its lists and
    counters stay. -/
theorem untouched_between_calls {t : T} (hok : PoolOk False s) (h : Returning s t)
    {acts : List (PoolAct T)} (hreach : (memoryPoolMachine T).Reaches s acts s')
    (hstart : ∀ a ∈ acts, ¬StartsCall t a) (i : Nat) : Untouched s s' t i := by
  suffices hall : PoolOk False s' ∧ Returning s' t ∧ Untouched s s' t i from hall.2.2
  -- the induction also carries that the thread has nothing to do but to return a list
  induction hreach with
  | refl => exact ⟨hok, h, .refl s t i⟩
  | snoc _ henabled hstep ih =>
    obtain ⟨hok', h', hsame⟩ := ih fun a ha => hstart a (List.mem_append_left _ ha)
    obtain ⟨hreturning, huntouched⟩ := returning_step h' hstep
      (hstart _ (List.mem_append_right _ (List.mem_singleton_self _)))
    obtain ⟨u, hu, hnext⟩ := poolOk_step hok' henabled False.elim
    rw [hstep, Option.some.injEq] at hu
    exact ⟨hu ▸ hnext, hreturning, hsame.trans (untouched_step hok' henabled hstep (huntouched i))⟩

end RainWebServer.Memory
