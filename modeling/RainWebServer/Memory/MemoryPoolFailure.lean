import RainWebServer.Memory.MemoryPoolCounters

/-!
# MemoryPool: an Allocation for Which There Is No Memory

When `mmap` fails, `systemAlloc`, `allocateSpan`, `fetchFromPageCache`, `fetchRange` and
`fetchFromCentralCache` all return `nullptr`, and so does `allocate`. On the way back the spin lock
is released and nothing else has to be undone, but for the counter that `allocate` has decremented
before it looked at the list.

## Main results

- `failedCall_states` : the states in which a failing call passes from one part to the next
- `failedCalls_counter` : the counter after any number of failing calls
- `failedCall_not_asBefore` : a failing call never leaves the pool as it was
-/

namespace RainWebServer.Memory

open RainWebServer.Lib SizeClass

variable {T : Type} [DecidableEq T] {s s' : MemoryPool T} {t : T}

/-! ## §1 The parts of a failing call -/

/-- A thread keeps its cache and its place while others act. -/
theorem own_of_others {acts : List (PoolAct T)} (h : (memoryPoolMachine T).Reaches s acts s')
    (hothers : ∀ a ∈ acts, a.thread ≠ some t) :
    s'.threads t = s.threads t ∧ s'.calls t = s.calls t := by
  induction h with
  | refl => exact ⟨rfl, rfl⟩
  | snoc _ _ hstep ih =>
    obtain ⟨hthreads, hcalls⟩ := ih fun a ha => hothers a (List.mem_append_left _ ha)
    have hne := hothers _ (List.mem_append_right _ (List.mem_singleton_self _))
    exact ⟨(threads_step_of_ne hstep hne).trans hthreads, (calls_step_of_ne hstep hne).trans hcalls⟩

/-- `allocate` that does not return at once has found its list empty. -/
theorem allocate_of_not_idle {size : Nat} (hsize : size ≤ MAX_BYTES) (hidle : s.calls t = .idle)
    (hgoes : (s.allocate t size).calls t ≠ .idle) :
    s.allocate t size = (s.setThread t ((s.threads t).beginAllocate (getIndex size))).setCall t
      (.fetchRange (getIndex size) size) := by
  rcases Classical.em ((s.threads t).freeList_ (getIndex size) = 0) with hempty | hptr
  · exact allocate_of_eq_zero hsize hempty
  · rw [allocate_of_ne hsize hptr] at hgoes
    exact absurd hidle hgoes

/-- `fetchRange` that does not return at once has found the central list empty. -/
theorem fetchRange_of_not_idle {index size : Nat}
    (hgoes : (s.fetchRange t index size).calls t ≠ .idle) :
    s.fetchRange t index size = (s.setLock index true).setCall t (.allocateSpan index size) := by
  rcases Classical.em (s.centralCache.centralFreeList_ index = 0) with hempty | hne
  · exact fetchRange_of_eq_zero t size hempty
  · unfold MemoryPool.fetchRange at hgoes
    simp only [] at hgoes
    rw [if_neg hne] at hgoes
    exact absurd (Function.update_self _ _ _) hgoes

/-- The actions of an `allocate` whose `mmap` fails, and what others do before it has the spin lock
    and before it has the mutex. -/
def failedCall (t : T) (size : Nat) (others₁ others₂ : List (PoolAct T)) : List (PoolAct T) :=
  .allocate t size :: (others₁ ++ .fetchRange t :: (others₂ ++ [.allocateSpan t none]))

/-- **The parts of a failing call.** The counter goes down, the spin lock is taken and released, and
    the call ends; the rest is done by others. -/
theorem failedCall_states {mem : Words} {before others₁ others₂ : List (PoolAct T)}
    (hs : (memoryPoolMachine T).Reaches (.start mem) before s) {size : Nat}
    (hsize : size ≤ MAX_BYTES) (h₁ : ∀ a ∈ others₁, a.thread ≠ some t)
    (h₂ : ∀ a ∈ others₂, a.thread ≠ some t)
    (h : (memoryPoolMachine T).Reaches s (failedCall t size others₁ others₂) s') :
    ∃ s₁ s₂, s.calls t = .idle ∧
      (memoryPoolMachine T).Reaches
        ((s.setThread t ((s.threads t).beginAllocate (getIndex size))).setCall t
          (.fetchRange (getIndex size) size)) others₁ s₁ ∧
      s₁.centralCache.locks_ (getIndex size) = false ∧
      (memoryPoolMachine T).Reaches
        ((s₁.setLock (getIndex size) true).setCall t (.allocateSpan (getIndex size) size))
        others₂ s₂ ∧
      s' = (s₂.setLock (getIndex size) false).setCall t .idle := by
  obtain ⟨sa, henabled, hstep, hrest₁⟩ := h.head
  obtain ⟨s₁, hrun₁, hrest₂⟩ := hrest₁.of_append
  obtain ⟨sb, hefetch, hfetch, hrest₃⟩ := hrest₂.head
  obtain ⟨s₂, hrun₂, hrest₄⟩ := hrest₃.of_append
  obtain ⟨sc, hespan, hspan, hend⟩ := hrest₄.head
  have hreach₁ := hs.trans (hrun₁.cons henabled hstep)
  have hok := Machine.invariant_reaches (poolOk_invariant mem)
    (hreach₁.trans (hrun₂.cons hefetch hfetch))
  cases hstep
  have hidle : s.calls t = .idle := of_decide_eq_true henabled
  -- the list of the thread is empty, or the thread would not wait for the spin lock
  obtain ⟨index, size', hcall₁, hlock⟩ := fetchRange_enabled hefetch
  have hgoes : (s.allocate t size).calls t ≠ .idle := by
    rw [← (own_of_others hrun₁ h₁).2, hcall₁]
    exact fun heq => by cases heq
  rw [allocate_of_not_idle hsize hidle hgoes] at hrun₁
  have hcall := (own_of_others hrun₁ h₁).2.trans (Function.update_self _ _ _)
  rw [hcall, PoolCall.fetchRange.injEq] at hcall₁
  obtain ⟨rfl, rfl⟩ := hcall₁
  simp only [memoryPoolMachine, hcall] at hfetch
  cases hfetch
  -- and so is the central list
  obtain ⟨index, size', hcall₂, -⟩ := allocateSpan_enabled hespan
  have hgoes' : (s₁.fetchRange t (getIndex size) size).calls t ≠ .idle := by
    rw [← (own_of_others hrun₂ h₂).2, hcall₂]
    exact fun heq => by cases heq
  rw [fetchRange_of_not_idle hgoes'] at hrun₂
  have hcall' := (own_of_others hrun₂ h₂).2.trans (Function.update_self _ _ _)
  simp only [memoryPoolMachine, hcall'] at hspan
  change s₂.allocateSpan t (getIndex size) size none = some sc at hspan
  rw [allocateSpan_none _ _ _ _ hok.1.freeSpans, Option.some.injEq] at hspan
  rw [hend.eq_of_nil, ← hspan]
  exact ⟨s₁, s₂, hidle, hrun₁, hlock, hrun₂, rfl⟩

/-! ## §2 What the call leaves behind -/

/-- The state is as before, in what the pool keeps: both members of the calling thread's cache, the
    lists and locks of the central cache, `freeSpans_` and `spanMap_`. -/
def AsBefore (s s' : MemoryPool T) (t : T) : Prop :=
  (∀ i, (s'.threads t).freeList_ i = (s.threads t).freeList_ i) ∧
    (∀ i, (s'.threads t).freeListSize_ i = (s.threads t).freeListSize_ i) ∧
    (∀ i, s'.centralCache.centralFreeList_ i = s.centralCache.centralFreeList_ i) ∧
    (∀ i, s'.centralCache.locks_ i = s.centralCache.locks_ i) ∧
    s'.pageCache.freeSpans_ = s.pageCache.freeSpans_ ∧
    s'.pageCache.spanMap_ = s.pageCache.spanMap_

/-- `freeListSize_[index]--` changes the counter. -/
theorem decremented_ne (c : Nat) : sizeT (c + (2 ^ 64 - 1)) ≠ c := by
  unfold sizeT
  omega

/-- A call that nobody interrupts leaves nothing but the decremented counter. -/
theorem failedCall_alone {mem : Words} {before : List (PoolAct T)}
    (hs : (memoryPoolMachine T).Reaches (.start mem) before s) {size : Nat}
    (hsize : size ≤ MAX_BYTES)
    (h : (memoryPoolMachine T).Reaches s (failedCall t size [] []) s') :
    s' = s.setThread t ((s.threads t).beginAllocate (getIndex size)) := by
  have hnobody : ∀ a ∈ ([] : List (PoolAct T)), a.thread ≠ some t := fun a ha => by cases ha
  obtain ⟨s₁, s₂, hidle, hrun₁, hlock, hrun₂, rfl⟩ := failedCall_states hs hsize hnobody hnobody h
  rw [hrun₁.eq_of_nil] at hlock hrun₂
  rw [hrun₂.eq_of_nil]
  -- the lock and the call are back where they were
  have hfree : s.centralCache.locks_ (getIndex size) = false := hlock
  have hlocks : Function.update s.centralCache.locks_ (getIndex size) false =
      s.centralCache.locks_ := Function.update_eq_self_iff.mpr hfree.symm
  have hcalls : Function.update s.calls t .idle = s.calls :=
    Function.update_eq_self_iff.mpr hidle.symm
  simp only [MemoryPool.setCall, MemoryPool.setLock, MemoryPool.setThread, Function.update_idem]
  rw [hlocks, hcalls]

/-- After `n` such calls in a row the counter has lost `n`, modulo 2^64. -/
theorem failedCalls_counter {mem : Words} {before : List (PoolAct T)}
    (hs : (memoryPoolMachine T).Reaches (.start mem) before s) {size : Nat}
    (hsize : size ≤ MAX_BYTES) {n : Nat}
    (h : (memoryPoolMachine T).Reaches s
      (List.replicate n (failedCall t size [] [])).flatten s') :
    ((s'.threads t).freeListSize_ (getIndex size) + n) % 2 ^ 64 =
      (s.threads t).freeListSize_ (getIndex size) % 2 ^ 64 := by
  induction n generalizing before s with
  | zero =>
    rw [h.eq_of_nil, Nat.add_zero]
  | succ n ih =>
    rw [List.replicate_succ, List.flatten_cons] at h
    obtain ⟨s₁, hfirst, hrest⟩ := h.of_append
    have hcounter : (s₁.threads t).freeListSize_ (getIndex size) =
        sizeT ((s.threads t).freeListSize_ (getIndex size) + (2 ^ 64 - 1)) := by
      simp [failedCall_alone hs hsize hfirst, MemoryPool.setThread, ThreadCache.beginAllocate]
    have hlost := ih (hs.trans hfirst) hrest
    rw [hcounter, sizeT] at hlost
    omega

/-- **A failing call never leaves the pool as it was.** For every reachable state, every size that
    the pool serves and whatever other threads do in between, the call is over and the counter of
    the class has lost one. If nobody else acts, nothing else has changed. -/
theorem failedCall_not_asBefore {mem : Words} {before others₁ others₂ : List (PoolAct T)}
    (hs : (memoryPoolMachine T).Reaches (.start mem) before s) {size : Nat}
    (hsize : size ≤ MAX_BYTES) (h₁ : ∀ a ∈ others₁, a.thread ≠ some t)
    (h₂ : ∀ a ∈ others₂, a.thread ≠ some t)
    (h : (memoryPoolMachine T).Reaches s (failedCall t size others₁ others₂) s') :
    ¬AsBefore s s' t ∧ s'.calls t = .idle ∧
      s'.threads t = (s.threads t).beginAllocate (getIndex size) ∧
      (others₁ = [] → others₂ = [] →
        s' = s.setThread t ((s.threads t).beginAllocate (getIndex size))) := by
  obtain ⟨s₁, s₂, -, hrun₁, -, hrun₂, rfl⟩ := failedCall_states hs hsize h₁ h₂ h
  have hcache : s₂.threads t = (s.threads t).beginAllocate (getIndex size) := by
    calc s₂.threads t = s₁.threads t := (own_of_others hrun₂ h₂).1
      _ = (s.threads t).beginAllocate (getIndex size) :=
        (own_of_others hrun₁ h₁).1.trans (Function.update_self _ _ _)
  refine ⟨?_, Function.update_self _ _ _, hcache, ?_⟩
  · rintro ⟨-, hsizes, -⟩
    have hcounter := hsizes (getIndex size)
    change (s₂.threads t).freeListSize_ (getIndex size) = _ at hcounter
    rw [hcache, ThreadCache.beginAllocate, ThreadCache.freeListSize_setFreeListSize,
      Function.update_self] at hcounter
    exact decremented_ne _ hcounter
  · rintro rfl rfl
    exact failedCall_alone hs hsize h

/-- `mmap` fails for the first thread that asks a pool for eight bytes. -/
theorem firstCall_not_asBefore :
    ∃ s', (memoryPoolMachine Unit).Reaches (.start fun _ => 7) (failedCall () 8 [] []) s' ∧
      ¬AsBefore (.start fun _ => 7) s' () := by
  have hrun : ((memoryPoolMachine Unit).run (.start fun _ => 7)
      (failedCall () 8 [] [])).isSome = true := by decide +kernel
  obtain ⟨s', hs'⟩ := Option.isSome_iff_exists.mp hrun
  have hreach := Machine.reaches_of_run hs'
  exact ⟨s', hreach, (failedCall_not_asBefore .refl (by decide) (fun a ha => by cases ha)
    (fun a ha => by cases ha) hreach).1⟩

/-- That thread has an empty list and a counter of 2^64 - 1, so not every failing call leaves the
    pool as it was. -/
theorem firstCall_counter_wraps :
    ¬∀ (s s' : MemoryPool Unit) (before : List (PoolAct Unit)) (size : Nat),
      (memoryPoolMachine Unit).Reaches (.start fun _ => 7) before s → size ≤ MAX_BYTES →
      (memoryPoolMachine Unit).Reaches s (failedCall () size [] []) s' → AsBefore s s' () := by
  intro hall
  have hrun : ((memoryPoolMachine Unit).run (.start fun _ => 7) (failedCall () 8 [] [])).map
      (fun s => ((s.threads ()).freeListSize_ 0, (s.threads ()).freeList_ 0)) =
      some (2 ^ 64 - 1, 0) := by decide +kernel
  obtain ⟨s', hs', hend⟩ := Option.map_eq_some_iff.mp hrun
  simp only [Prod.mk.injEq] at hend
  obtain ⟨-, hsizes, -⟩ := hall _ s' [] 8 .refl (by decide) (Machine.reaches_of_run hs')
  have hcounter := hsizes 0
  rw [hend.1] at hcounter
  cases hcounter

end RainWebServer.Memory
