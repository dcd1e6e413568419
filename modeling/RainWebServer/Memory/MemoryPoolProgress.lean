import RainWebServer.Lib.Drain
import RainWebServer.Memory.MemoryPoolFrames

/-!
# MemoryPool: Every Call Ends

A thread spins in `fetchRange` and `returnRange` while another one holds the lock of the size
class, and that one may be waiting for the mutex of the page cache at the same time. This module
shows that nobody waits in a circle: the lock is held by a thread that needs only the mutex, which
is held for one call of the page cache at a time.

## Main results

- `memoryPool_locks_held` : who holds a lock
- `memoryPool_calls_end` : every call ends, within two more steps of its thread, whatever the others
  do
-/

namespace RainWebServer.Memory

open RainWebServer.Lib SizeClass

variable {T : Type}

/-! ## §1 Who holds a lock -/

/-- A lock that is held is held by a thread in `allocateSpan`. -/
def HeldInv (s : MemoryPool T) : Prop :=
  ∀ index, s.centralCache.locks_ index = true → ∃ t size, s.calls t = .allocateSpan index size

variable [DecidableEq T] {s s' : MemoryPool T}

/-- `allocate` and `deallocate` take no lock. -/
theorem locks_allocate (s : MemoryPool T) (t : T) (size : Nat) :
    (s.allocate t size).centralCache.locks_ = s.centralCache.locks_ := by
  unfold MemoryPool.allocate
  generalize (if size = 0 then ALIGNMENT else size) = bytes
  simp only []
  split
  · rfl
  · split
    · rfl
    · split <;> rfl

theorem locks_deallocate (s : MemoryPool T) (t : T) (ptr : Addr) (size : Nat) :
    (s.deallocate t ptr size).centralCache.locks_ = s.centralCache.locks_ := by
  unfold MemoryPool.deallocate MemoryPool.giveBack
  split
  · rfl
  · simp only []
    split
    · split
      · rfl
      · split <;> rfl
    · rfl

/-- `fetchRange` ends the call, or it goes on to `allocateSpan` with the lock. -/
theorem fetchRange_ends (s : MemoryPool T) (t : T) (index size : Nat) :
    ((s.fetchRange t index size).centralCache.locks_ = s.centralCache.locks_ ∧
        (s.fetchRange t index size).calls t = .idle) ∨
      (s.fetchRange t index size).centralCache.locks_ =
          Function.update s.centralCache.locks_ index true ∧
        (s.fetchRange t index size).calls t = .allocateSpan index size := by
  unfold MemoryPool.fetchRange
  simp only []
  split
  · exact .inr ⟨rfl, Function.update_self _ _ _⟩
  · exact .inl ⟨rfl, Function.update_self _ _ _⟩

/-- `allocateSpan` ends the call and clears the lock, whatever `mmap` returns. -/
theorem allocateSpan_ends (h : LockInv s) (t : T) (index size : Nat) (mmap : Option Addr) :
    ∃ s', s.allocateSpan t index size mmap = some s' ∧
      s'.centralCache.locks_ = Function.update s.centralCache.locks_ index false ∧
      s'.calls t = .idle := by
  unfold MemoryPool.allocateSpan CentralCache.fetchFromPageCache
  rw [PageCache.allocateSpan_of_freeSpans_nil _ _ _ h.freeSpans]
  cases mmap with
  | none => exact ⟨_, rfl, rfl, Function.update_self _ _ _⟩
  | some memory =>
    refine ⟨_, rfl, ?_, ?_⟩
    · simp only []
      split <;> rfl
    · simp only []
      split <;> exact Function.update_self _ _ _

/-- **Every enabled action preserves it.** -/
theorem heldInv_step (hlocks : LockInv s) (h : HeldInv s) {a : PoolAct T}
    (henabled : (memoryPoolMachine T).enabled s a = true)
    (hstep : (memoryPoolMachine T).step s a = some s') : HeldInv s' := by
  -- the lock of a holder that the action does not move
  have hother : ∀ {t call}, a.thread = some t → s.calls t = call → ∀ index,
      s.centralCache.locks_ index = true → (∀ n, call ≠ .allocateSpan index n) →
      ∃ u size, s'.calls u = .allocateSpan index size := by
    intro t call hthread hcall index hheld hnot
    obtain ⟨u, size, hu⟩ := h index hheld
    have hne : a.thread ≠ some u := by
      rw [hthread]
      rintro heq
      rw [Option.some.injEq] at heq
      exact hnot size (hcall.symm.trans (heq ▸ hu))
    exact ⟨u, size, (calls_step_of_ne hstep hne).trans hu⟩
  intro index hheld
  cases poolStep_of_step hstep with
  | allocate t size =>
    rw [locks_allocate] at hheld
    exact hother rfl (of_decide_eq_true henabled) index hheld fun _ heq => by cases heq
  | deallocate t ptr size =>
    rw [locks_deallocate] at hheld
    simp only [memoryPoolMachine, Bool.and_eq_true, decide_eq_true_eq] at henabled
    exact hother rfl henabled.1 index hheld fun _ heq => by cases heq
  | returnRange hcall => exact hother rfl hcall index hheld fun _ heq => by cases heq
  | write addr value => exact h index hheld
  | @fetchRange t i size hcall =>
    rcases fetchRange_ends s t i size with ⟨hsame, -⟩ | ⟨htaken, hcall'⟩
    · rw [hsame] at hheld
      exact hother rfl hcall index hheld fun _ heq => by cases heq
    · rcases Classical.em (index = i) with rfl | hi
      · exact ⟨t, size, hcall'⟩
      · rw [htaken, Function.update_of_ne hi] at hheld
        exact hother rfl hcall index hheld fun _ heq => by cases heq
  | @allocateSpan t i size mmap _ hcall hspan =>
    obtain ⟨s'', hs'', hcleared, -⟩ := allocateSpan_ends hlocks t i size mmap
    rw [hspan, Option.some.injEq] at hs''
    subst hs''
    rcases Classical.em (index = i) with rfl | hi
    · rw [hcleared, Function.update_self] at hheld
      cases hheld
    · rw [hcleared, Function.update_of_ne hi] at hheld
      refine hother rfl hcall index hheld fun n heq => hi ?_
      rw [PoolCall.allocateSpan.injEq] at heq
      exact heq.1.symm

/-! ## §2 Going on with a call -/

omit [DecidableEq T] in
/-- The thread that goes on with its call. -/
def PoolAct.continues : PoolAct T → Option T
  | .fetchRange t | .allocateSpan t _ | .returnRange t => some t
  | _ => none

omit [DecidableEq T] in
/-- The thread that starts a call. -/
def PoolAct.starts : PoolAct T → Option T
  | .allocate t _ | .deallocate t _ _ => some t
  | _ => none

omit [DecidableEq T] in
/-- An action that neither starts a call of the thread nor goes on with one is not its action. -/
theorem thread_ne_of_not_starts {a : PoolAct T} {t : T} (hcontinues : a.continues = none)
    (hstarts : a.starts ≠ some t) : a.thread ≠ some t := by
  cases a with
  | allocate u size => exact hstarts
  | deallocate u ptr size => exact hstarts
  | write addr value => exact (Option.some_ne_none t).symm
  | fetchRange u => cases hcontinues
  | allocateSpan u mmap => cases hcontinues
  | returnRange u => cases hcontinues

/-- How many more steps a call may take. -/
def PoolCall.rank : PoolCall → Nat
  | .idle => 0
  | .fetchRange _ _ => 2
  | .allocateSpan _ _ | .returnRange _ _ _ => 1

/-- What is known in every state. -/
def WaitInv (s : MemoryPool T) : Prop := LockInv s ∧ HeldInv s

theorem waitInv_step (h : WaitInv s) {a : PoolAct T}
    (henabled : (memoryPoolMachine T).enabled s a = true)
    (hstep : (memoryPoolMachine T).step s a = some s') : WaitInv s' :=
  ⟨lockInv_step h.1 henabled hstep, heldInv_step h.1 h.2 henabled hstep⟩

/-- The thread that holds a lock can go on. -/
theorem holder_goes (h : LockInv s) {t : T} {index size : Nat}
    (hcall : s.calls t = .allocateSpan index size) :
    ∃ s', (memoryPoolMachine T).enabled s (.allocateSpan t none) = true ∧
      (memoryPoolMachine T).step s (.allocateSpan t none) = some s' := by
  obtain ⟨s', hspan, -⟩ := allocateSpan_ends h t index size none
  refine ⟨s', ?_, ?_⟩
  · simp only [memoryPoolMachine, hcall]
    rfl
  · simp only [memoryPoolMachine, hcall, hspan]

/-- **Some thread can go on**, while one is in a call: the thread itself, or the one that holds the
    lock it waits for. -/
theorem continues_goes (h : WaitInv s) {t : T} (hrank : 0 < (s.calls t).rank) :
    ∃ a u s', PoolAct.continues a = some u ∧ (memoryPoolMachine T).enabled s a = true ∧
      (memoryPoolMachine T).step s a = some s' := by
  obtain ⟨hlocks, hheld⟩ := h
  -- the lock is free, or its holder goes on
  have hlock : ∀ index, s.centralCache.locks_ index = true → ∃ a u s',
      PoolAct.continues a = some u ∧ (memoryPoolMachine T).enabled s a = true ∧
        (memoryPoolMachine T).step s a = some s' := by
    intro index htaken
    obtain ⟨u, size, hu⟩ := hheld index htaken
    obtain ⟨s', henabled, hstep⟩ := holder_goes hlocks hu
    exact ⟨_, u, s', rfl, henabled, hstep⟩
  cases hcall : s.calls t with
  | idle =>
    rw [hcall] at hrank
    cases hrank
  | allocateSpan index size =>
    obtain ⟨s', henabled, hstep⟩ := holder_goes hlocks hcall
    exact ⟨_, t, s', rfl, henabled, hstep⟩
  | fetchRange index size =>
    cases hfree : s.centralCache.locks_ index with
    | true => exact hlock index hfree
    | false =>
      refine ⟨.fetchRange t, t, s.fetchRange t index size, rfl, ?_, ?_⟩
      · simp [memoryPoolMachine, hcall, hfree]
      · simp only [memoryPoolMachine, hcall]
  | returnRange start bytes index =>
    cases hfree : s.centralCache.locks_ index with
    | true => exact hlock index hfree
    | false =>
      refine ⟨.returnRange t, t, s.returnRange t start bytes index, rfl, ?_, ?_⟩
      · simp [memoryPoolMachine, hcall, hfree]
      · simp only [memoryPoolMachine, hcall]

/-- **The pool drains.** -/
theorem memoryPool_drains : (memoryPoolMachine T).Drains WaitInv PoolAct.continues
    (fun s t => (s.calls t).rank) where
  keeps := fun _ _ _ h he hs => waitInv_step h he hs
  goes := fun _ _ h hrank => continues_goes h hrank
  lowers := by
    intro s a s' t h hactor henabled hstep
    have hthread : a.thread = some t := by
      cases a with
      | fetchRange u => exact hactor
      | allocateSpan u mmap => exact hactor
      | returnRange u => exact hactor
      | _ => cases hactor
    refine ⟨?_, fun u hu => ?_⟩
    · cases poolStep_of_step hstep with
      | @fetchRange u index size hcall =>
        cases hactor
        rw [hcall]
        rcases fetchRange_ends s t index size with ⟨-, hend⟩ | ⟨-, hend⟩
        · rw [hend]
          exact Nat.zero_lt_two
        · rw [hend]
          exact Nat.one_lt_two
      | @allocateSpan u index size mmap _ hcall hspan =>
        cases hactor
        obtain ⟨s'', hs'', -, hend⟩ := allocateSpan_ends h.1 t index size mmap
        rw [hspan, Option.some.injEq] at hs''
        subst hs''
        rw [hcall, hend]
        exact Nat.zero_lt_one
      | @returnRange u start bytes index hcall =>
        cases hactor
        have hend : (s.returnRange t start bytes index).calls t = .idle :=
          Function.update_self _ _ _
        rw [hcall, hend]
        exact Nat.zero_lt_one
      | _ => cases hactor
    · rw [calls_step_of_ne hstep]
      rw [hthread]
      exact fun heq => hu (Option.some.inj heq).symm

/-! ## §3 Every run -/

omit [DecidableEq T] in
theorem waitInv_start (mem : Words) : WaitInv (MemoryPool.start mem : MemoryPool T) := by
  refine ⟨⟨rfl, fun _ => trivial⟩, fun index hheld => ?_⟩
  cases hheld

theorem waitInv_reaches {mem : Words} {acts : List (PoolAct T)}
    (h : (memoryPoolMachine T).Reaches (.start mem) acts s) : WaitInv s :=
  h.preserves (fun _ _ _ hinv he hs => waitInv_step hinv he hs) (waitInv_start mem)

/-- Only threads that have done something are in a call. -/
theorem busy_mem {mem : Words} {acts : List (PoolAct T)}
    (h : (memoryPoolMachine T).Reaches (.start mem) acts s) {t : T} (ht : s.calls t ≠ .idle) :
    t ∈ acts.filterMap PoolAct.thread := by
  induction h with
  | refl => exact absurd rfl ht
  | @snoc acts u v a _ he hs ih =>
    rw [List.filterMap_append, List.mem_append]
    by_cases hthread : a.thread = some t
    · refine .inr ?_
      simp [hthread]
    · refine .inl (ih ?_)
      rwa [calls_step_of_ne hs hthread] at ht

/-- **Who holds a lock.** In every state of every run the lock of a size class is held exactly if
    some thread is in `allocateSpan` for it, and that is one thread at most. -/
theorem memoryPool_locks_held {mem : Words} {acts : List (PoolAct T)}
    (h : (memoryPoolMachine T).Reaches (.start mem) acts s) (index : Nat) :
    (s.centralCache.locks_ index = true ↔ ∃ t size, s.calls t = .allocateSpan index size) ∧
    ∀ t u m n, s.calls t = .allocateSpan index m → s.calls u = .allocateSpan index n → t = u := by
  obtain ⟨hlocks, hheld⟩ := waitInv_reaches h
  refine ⟨⟨hheld index, ?_⟩, ?_⟩
  · rintro ⟨t, size, hcall⟩
    obtain ⟨-, -, htaken, -⟩ := hlocks.call hcall
    exact htaken
  · intro t u m n ht hu
    obtain ⟨-, -, -, -, hexcl⟩ := hlocks.call hu
    exact hexcl t m ht

/-- Two threads have no block of eight bytes and ask for one. The second waits for the lock. -/
def waitingRun : List (PoolAct Bool) :=
  [.allocate true 8, .allocate false 8, .fetchRange true]

theorem waitingRun_locks_held :
    ∃ s, (memoryPoolMachine Bool).Reaches (.start fun _ => 0) waitingRun s ∧
      s.calls false = .fetchRange 0 8 ∧
      ((s.centralCache.locks_ 0 = true ↔ ∃ t size, s.calls t = .allocateSpan 0 size) ∧
        ∀ t u m n, s.calls t = .allocateSpan 0 m → s.calls u = .allocateSpan 0 n → t = u) := by
  have hrun : ((memoryPoolMachine Bool).run (.start fun _ => 0) waitingRun).map
      (fun s => s.calls false) = some (.fetchRange 0 8) := by decide +kernel
  obtain ⟨s, hs, hcall⟩ := Option.map_eq_some_iff.mp hrun
  have hreach := Machine.reaches_of_run hs
  exact ⟨s, hreach, hcall, memoryPool_locks_held hreach 0⟩

theorem rank_eq_zero {call : PoolCall} (h : call.rank = 0) : call = .idle := by
  cases call with
  | idle => rfl
  | _ => cases h

/-- **Every call ends.** From every state of every run the calls under way can end without another
    call, even if `mmap` fails from now on; and whatever the schedule is, whatever calls the other
    threads make and whatever `mmap` returns, a thread takes at most two more steps for its call. -/
theorem memoryPool_calls_end {mem : Words} {acts : List (PoolAct T)}
    (h : (memoryPoolMachine T).Reaches (.start mem) acts s) :
    (∃ as s', (memoryPoolMachine T).Reaches s as s' ∧
      (∀ a ∈ as, (PoolAct.continues a).isSome = true) ∧ ∀ t, s'.calls t = .idle) ∧
    ∀ as s', (memoryPoolMachine T).Reaches s as s' →
      ∀ t, (∀ a ∈ as, PoolAct.starts a ≠ some t) →
        as.countP (fun a => PoolAct.continues a = some t) ≤ 2 := by
  have hinv := waitInv_reaches h
  refine ⟨?_, fun as s' hrun t hstarts => ?_⟩
  · have hbusy : ∀ t, 0 < (s.calls t).rank → t ∈ acts.filterMap PoolAct.thread := by
      intro t ht
      refine busy_mem h fun hidle => ?_
      rw [hidle] at ht
      cases ht
    obtain ⟨as, s', hrun, hall, hzero⟩ := memoryPool_drains.finishes hinv hbusy
    exact ⟨as, s', hrun, hall, fun t => rank_eq_zero (hzero t)⟩
  · -- what is not the thread's own action leaves its call as it is
    have hcount := memoryPool_drains.count_le_of_quiet hinv hrun t fun a ha hnone u v _ _ hstep =>
      Nat.le_of_eq (congrArg PoolCall.rank
        (calls_step_of_ne hstep (thread_ne_of_not_starts hnone (hstarts a ha))))
    have hrank : (s.calls t).rank ≤ 2 := by
      cases s.calls t <;> simp [PoolCall.rank]
    omega

theorem waitingRun_calls_end :
    ∃ s, (memoryPoolMachine Bool).Reaches (.start fun _ => 0) waitingRun s ∧
      (∃ as s', (memoryPoolMachine Bool).Reaches s as s' ∧
        (∀ a ∈ as, (PoolAct.continues a).isSome = true) ∧ ∀ t, s'.calls t = .idle) ∧
      ∀ as s', (memoryPoolMachine Bool).Reaches s as s' →
        ∀ t, (∀ a ∈ as, PoolAct.starts a ≠ some t) →
          as.countP (fun a => PoolAct.continues a = some t) ≤ 2 := by
  have hrun : ((memoryPoolMachine Bool).run (.start fun _ => 0) waitingRun).isSome = true := by
    decide +kernel
  obtain ⟨s, hs⟩ := Option.isSome_iff_exists.mp hrun
  have hreach := Machine.reaches_of_run hs
  exact ⟨s, hreach, memoryPool_calls_end hreach⟩

end RainWebServer.Memory
