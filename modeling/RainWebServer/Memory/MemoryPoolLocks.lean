import RainWebServer.Memory.MemoryPool

/-!
# MemoryPool: What a Waiting Call Relies On

A call of the pool is cut where it waits for a lock, and goes on with what it found before. This
module shows that it may: a thread that fetches has no block of the size class itself, the thread
that holds a spin lock while it waits for the mutex is the only one, and the central list under
that lock is still empty when the span arrives. The pool never frees a span, so the page cache has
no free ones and every span is a new region.

## Main results

- `lockInv_step` : every enabled action preserves `LockInv`
-/

namespace RainWebServer.Memory

open RainWebServer.Lib SizeClass

variable {T : Type}

/-! ## §1 The invariant -/

/-- What the thread `t` knows in a call. -/
def CallOk (s : MemoryPool T) (t : T) : PoolCall → Prop
  | .idle => True
  | .fetchRange index size =>
    (index = getIndex size ∧ size ≤ MAX_BYTES) ∧ (s.threads t).freeList_ index = 0
  | .allocateSpan index size =>
    (index = getIndex size ∧ size ≤ MAX_BYTES) ∧ (s.threads t).freeList_ index = 0 ∧
      s.centralCache.locks_ index = true ∧ s.centralCache.centralFreeList_ index = 0 ∧
      ∀ u size', s.calls u = .allocateSpan index size' → u = t
  | .returnRange start _ _ => start ≠ 0

/-- The invariant of the locks and of the calls that wait for them. -/
structure LockInv (s : MemoryPool T) : Prop where
  freeSpans : s.pageCache.freeSpans_ = ∅
  calls : ∀ t, CallOk s t (s.calls t)

variable {s s' : MemoryPool T}

/-- The call of `t` under a given name. -/
theorem LockInv.call (h : LockInv s) {t : T} {call : PoolCall} (hcall : s.calls t = call) :
    CallOk s t call :=
  hcall ▸ h.calls t

/-- A thread waits for a span of a class that the pool serves. -/
theorem LockInv.index_lt (h : LockInv s) {t : T} {index size : Nat}
    (hcall : s.calls t = .allocateSpan index size) : index < FREE_LIST_SIZE := by
  obtain ⟨⟨rfl, hsize⟩, -⟩ := h.call hcall
  exact getIndex_lt hsize

/-- A step of the thread `t` that writes the central lists and locks of the `touched` classes,
    none of which another thread holds. -/
theorem LockInv.preserve (h : LockInv s) (t : T) (touched : Nat → Prop)
    (hfree : ∀ index, touched index → ∀ u size, s.calls u = .allocateSpan index size → u = t)
    (hpages : s'.pageCache.freeSpans_ = ∅)
    (hthreads : ∀ u, u ≠ t → s'.threads u = s.threads u)
    (hcalls : ∀ u, u ≠ t → s'.calls u = s.calls u)
    (hcentral : ∀ index, ¬touched index →
      s'.centralCache.locks_ index = s.centralCache.locks_ index ∧
      s'.centralCache.centralFreeList_ index = s.centralCache.centralFreeList_ index)
    (hmine : ∀ index size, s'.calls t = .allocateSpan index size → touched index)
    (hself : CallOk s' t (s'.calls t)) : LockInv s' := by
  refine ⟨hpages, ?_⟩
  intro u
  rcases Classical.em (u = t) with rfl | hne
  · exact hself
  · rw [hcalls u hne]
    cases hcall : s.calls u with
    | idle => trivial
    | returnRange start bytes index => exact h.call hcall
    | fetchRange index size =>
      obtain ⟨hok, hlist⟩ := h.call hcall
      exact ⟨hok, by rw [hthreads u hne]; exact hlist⟩
    | allocateSpan index size =>
      obtain ⟨hok, hlist, hlock, hempty, hexcl⟩ := h.call hcall
      -- the lock of the class is with `u`, so the step of `t` stays away from it
      have hnot : ¬touched index := fun htouched => hne (hfree index htouched u size hcall)
      obtain ⟨hlock', hempty'⟩ := hcentral index hnot
      refine ⟨hok, by rw [hthreads u hne]; exact hlist, hlock'.trans hlock,
        hempty'.trans hempty, ?_⟩
      intro v size' hv
      rcases Classical.em (v = t) with rfl | hvt
      · exact absurd (hmine index size' hv) hnot
      · rw [hcalls v hvt] at hv
        exact hexcl v size' hv

/-- Nobody holds a lock that is free. -/
theorem LockInv.free (h : LockInv s) {index : Nat}
    (hlock : s.centralCache.locks_ index = false) (u : T) (size : Nat) :
    s.calls u ≠ .allocateSpan index size := by
  intro hcall
  obtain ⟨-, -, hheld, -⟩ := h.call hcall
  rw [hlock] at hheld
  cases hheld

/-- A step that changes only the thread's own cache and the memory, and moves its call. -/
theorem LockInv.local_step (h : LockInv s) (t : T) (hpages : s'.pageCache = s.pageCache)
    (hcentral : s'.centralCache = s.centralCache)
    (hothers : ∀ u, u ≠ t → s'.threads u = s.threads u ∧ s'.calls u = s.calls u)
    (hmine : ∀ index size, s'.calls t ≠ .allocateSpan index size)
    (hself : CallOk s' t (s'.calls t)) : LockInv s' := by
  refine h.preserve t (fun _ => False) nofun (hpages ▸ h.freeSpans) (fun u hu => (hothers u hu).1)
    (fun u hu => (hothers u hu).2) ?_ ?_ hself
  · intro index _
    rw [hcentral]
    exact ⟨rfl, rfl⟩
  · intro index size hcall
    exact absurd hcall (hmine index size)

/-! ## §2 The actions -/

section Actions

variable [DecidableEq T]

/-- `allocate` leaves the shared caches and the other threads alone, and waits for a batch only
    if the thread has no block. -/
theorem LockInv.allocate (h : LockInv s) {t : T} (size : Nat) (hidle : s.calls t = .idle) :
    LockInv (s.allocate t size) := by
  have hbytes : getIndex (if size = 0 then ALIGNMENT else size) = getIndex size ∧
      size ≤ if size = 0 then ALIGNMENT else size := getIndex_request size
  unfold MemoryPool.allocate
  generalize (if size = 0 then ALIGNMENT else size) = bytes at hbytes ⊢
  obtain ⟨hindex, hle⟩ := hbytes
  simp only [hindex]
  rcases Nat.lt_or_ge MAX_BYTES bytes with hbig | hsmall
  · rw [if_pos hbig]
    exact h
  · rw [if_neg (Nat.not_lt.mpr hsmall)]
    split
    · refine h.local_step t rfl rfl (fun u hu => ⟨Function.update_of_ne hu _ _, rfl⟩) ?_ ?_
      · simp [MemoryPool.setThread, hidle]
      · simp [MemoryPool.setThread, hidle, CallOk]
    · rename_i hempty
      split
      · refine h.local_step t rfl rfl (fun u hu => ⟨Function.update_of_ne hu _ _, rfl⟩) ?_ ?_
        · simp [MemoryPool.setThread, hidle]
        · simp [MemoryPool.setThread, hidle, CallOk]
      · refine h.local_step t rfl rfl (fun u hu =>
          ⟨Function.update_of_ne hu _ _, Function.update_of_ne hu _ _⟩) ?_ ?_
        · simp [MemoryPool.setThread, MemoryPool.setCall]
        · -- `fetchFromCentralCache` is entered with an empty list
          have hself : CallOk
              ((s.setThread t ((s.threads t).beginAllocate (getIndex size))).setCall t
                (.fetchRange (getIndex size) size)) t (.fetchRange (getIndex size) size) := by
            refine ⟨⟨rfl, Nat.le_trans hle hsmall⟩, ?_⟩
            simpa [MemoryPool.setThread, MemoryPool.setCall] using hempty
          simpa [MemoryPool.setCall] using hself

/-- `fetchRange` under the lock. -/
theorem LockInv.fetchRange (h : LockInv s) {t : T} {index size : Nat}
    (hcall : s.calls t = .fetchRange index size)
    (hlock : s.centralCache.locks_ index = false) : LockInv (s.fetchRange t index size) := by
  obtain ⟨hok, hlist⟩ := h.call hcall
  have hfree := h.free hlock
  unfold MemoryPool.fetchRange
  simp only []
  split
  · -- the lock is held on, over the call of the page cache
    rename_i hempty
    refine h.preserve t (· = index) (fun _ hi u n hu => absurd (hi ▸ hu) (hfree u n)) h.freeSpans
      (fun _ _ => rfl) (fun u hu => Function.update_of_ne hu _ _) ?_ ?_ ?_
    · intro i hi
      exact ⟨Function.update_of_ne hi _ _, rfl⟩
    · intro i n hself
      simp only [MemoryPool.setCall, Function.update_self, PoolCall.allocateSpan.injEq] at hself
      exact hself.1.symm
    · have hself : CallOk ((s.setLock index true).setCall t (.allocateSpan index size)) t
          (.allocateSpan index size) := by
        refine ⟨hok, hlist, Function.update_self _ _ _, hempty, ?_⟩
        intro u n hu
        -- the lock was free, so no other thread is in this place
        by_contra hne
        simp only [MemoryPool.setCall, Function.update_of_ne hne] at hu
        exact hfree u n hu
      simpa [MemoryPool.setCall] using hself
  · refine h.preserve t (· = index) (fun _ hi u n hu => absurd (hi ▸ hu) (hfree u n)) h.freeSpans
      (fun u hu => Function.update_of_ne hu _ _) (fun u hu => Function.update_of_ne hu _ _) ?_ ?_ ?_
    · intro i hi
      exact ⟨rfl, Function.update_of_ne hi _ _⟩
    · simp [MemoryPool.deliver, MemoryPool.setCall]
    · simp [MemoryPool.deliver, MemoryPool.setCall, CallOk]

/-- `fetchRange` from the mutex on: the lock is cleared on both ways out. -/
theorem LockInv.allocateSpan (h : LockInv s) {t : T} {index size : Nat} {mmap : Option Addr}
    (hcall : s.calls t = .allocateSpan index size)
    (hstep : s.allocateSpan t index size mmap = some s') : LockInv s' := by
  obtain ⟨-, -, -, -, hexcl⟩ := h.call hcall
  have hfree : ∀ i, i = index → ∀ u n, s.calls u = .allocateSpan i n → u = t := by
    rintro i rfl
    exact hexcl
  unfold MemoryPool.allocateSpan CentralCache.fetchFromPageCache at hstep
  rw [PageCache.allocateSpan_of_freeSpans_nil _ _ _ h.freeSpans] at hstep
  -- the page cache gives no span back, so its lists are empty and it maps a new one
  cases mmap with
  | none =>
    -- `mmap` fails: the lock is cleared and null is returned
    cases hstep
    refine h.preserve t (· = index) hfree h.freeSpans (fun _ _ => rfl)
      (fun u hu => Function.update_of_ne hu _ _) ?_ ?_ ?_
    · intro i hi
      exact ⟨Function.update_of_ne hi _ _, rfl⟩
    · simp [MemoryPool.setCall]
    · simp [MemoryPool.setCall, CallOk]
  | some memory =>
    cases hstep
    simp only []
    split
    · refine h.preserve t (· = index) hfree h.freeSpans (fun u hu => Function.update_of_ne hu _ _)
        (fun u hu => Function.update_of_ne hu _ _) ?_ ?_ ?_
      · intro i hi
        exact ⟨Function.update_of_ne hi _ _, Function.update_of_ne hi _ _⟩
      · simp [MemoryPool.deliver, MemoryPool.setCall]
      · simp [MemoryPool.deliver, MemoryPool.setCall, CallOk]
    · refine h.preserve t (· = index) hfree h.freeSpans (fun u hu => Function.update_of_ne hu _ _)
        (fun u hu => Function.update_of_ne hu _ _) ?_ ?_ ?_
      · intro i hi
        exact ⟨Function.update_of_ne hi _ _, rfl⟩
      · simp [MemoryPool.deliver, MemoryPool.setCall]
      · simp [MemoryPool.deliver, MemoryPool.setCall, CallOk]

/-- `deallocate` leaves the shared caches and the other threads alone, and waits for
    `returnRange` only with a list. -/
theorem LockInv.deallocate (h : LockInv s) {t : T} (ptr : Addr) (size : Nat)
    (hidle : s.calls t = .idle) : LockInv (s.deallocate t ptr size) := by
  unfold MemoryPool.deallocate
  split
  · exact h
  · -- the push comes first, whatever follows it
    have hpush : LockInv (s.pushBlock t ptr (getIndex size)) := by
      refine h.local_step t rfl rfl (fun u hu => ⟨Function.update_of_ne hu _ _, rfl⟩) ?_ ?_
      · simp [MemoryPool.pushBlock, MemoryPool.setThread, hidle]
      · simp [MemoryPool.pushBlock, MemoryPool.setThread, hidle, CallOk]
    have hidle' : (s.pushBlock t ptr (getIndex size)).calls t = .idle := hidle
    simp only []
    generalize s.pushBlock t ptr (getIndex size) = s₁ at hpush hidle'
    split
    · unfold MemoryPool.giveBack
      simp only []
      split
      · refine hpush.local_step t rfl rfl (fun u hu => ⟨Function.update_of_ne hu _ _, rfl⟩) ?_ ?_
        · simp [MemoryPool.setThread, hidle']
        · simp [MemoryPool.setThread, hidle', CallOk]
      · split
        · refine hpush.local_step t rfl rfl (fun u hu => ⟨Function.update_of_ne hu _ _, rfl⟩) ?_ ?_
          · simp [MemoryPool.setThread, hidle']
          · simp [MemoryPool.setThread, hidle', CallOk]
        · rename_i hstart
          refine hpush.local_step t rfl rfl (fun u hu =>
            ⟨Function.update_of_ne hu _ _, Function.update_of_ne hu _ _⟩) ?_ ?_
          · simp [MemoryPool.setThread, MemoryPool.setCall]
          · simp only [MemoryPool.setCall, Function.update_self, CallOk]
            exact fun hzero => hstart (.inl hzero)
    · exact hpush

/-- `returnRange` under the lock. -/
theorem LockInv.returnRange (h : LockInv s) {t : T} {start : Addr} {bytes index : Nat}
    (hlock : s.centralCache.locks_ index = false) :
    LockInv (s.returnRange t start bytes index) := by
  refine h.preserve t (· = index) (fun _ hi u n hu => absurd (hi ▸ hu) (h.free hlock u n))
    h.freeSpans (fun _ _ => rfl) (fun u hu => Function.update_of_ne hu _ _) ?_ ?_ ?_
  · intro i hi
    exact ⟨rfl, Function.update_of_ne hi _ _⟩
  · simp [MemoryPool.returnRange, MemoryPool.setCall]
  · simp [MemoryPool.returnRange, MemoryPool.setCall, CallOk]

/-- **Every enabled action preserves the invariant.** -/
theorem lockInv_step (h : LockInv s) {a : PoolAct T}
    (henabled : (memoryPoolMachine T).enabled s a = true)
    (hstep : (memoryPoolMachine T).step s a = some s') : LockInv s' := by
  cases poolStep_of_step hstep with
  | allocate t size => exact h.allocate size (of_decide_eq_true henabled)
  | fetchRange hcall =>
    simp only [memoryPoolMachine, hcall] at henabled
    exact h.fetchRange hcall (by simpa using henabled)
  | allocateSpan hcall hspan => exact h.allocateSpan hcall hspan
  | deallocate t ptr size =>
    simp only [memoryPoolMachine, Bool.and_eq_true, decide_eq_true_eq] at henabled
    exact h.deallocate ptr size henabled.1
  | returnRange hcall =>
    simp only [memoryPoolMachine, hcall] at henabled
    exact h.returnRange (by simpa using henabled)
  | write addr value => exact ⟨h.freeSpans, h.calls⟩

end Actions

end RainWebServer.Memory
