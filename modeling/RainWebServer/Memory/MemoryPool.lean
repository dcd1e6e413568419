import RainWebServer.Lib.Machine
import RainWebServer.Memory.ThreadCache

/-!
# MemoryPool: the Threads and the Caches They Share

Embeds `include/memory/MemoryPool.h` and puts `ThreadCache`, `CentralCache` and `PageCache`
together: every thread of an arbitrary type `T` has a `ThreadCache` of its own, all share one
`CentralCache` and one `PageCache`.

A call of `allocate` or `deallocate` is cut where it takes a lock, so that an action is what a
thread does up to its next lock or the end of the call:

- `allocate` : up to the spin lock of `fetchRange`, or to the end if the thread's list has a block
- `fetchRange` : from the spin lock to the end, or to the mutex of the page cache
- `allocateSpan` : from the mutex to the end of `allocate`
- `deallocate` : up to the spin lock of `returnRange`, or to the end
- `returnRange` : from the spin lock to the end
- `write` : a user of the pool writes a word of a live block

What `malloc` and `free` do for sizes above `MAX_BYTES` is outside of the pool's memory.
-/

namespace RainWebServer.Memory

open RainWebServer.Lib SizeClass

/-! ## §1 State -/

/-- Where a thread is in a call. `size` is the request, which the code does not keep. -/
inductive PoolCall where
  | idle
  /-- Waiting for `locks_[index]` in `fetchRange`. -/
  | fetchRange (index size : Nat)
  /-- Holding `locks_[index]`, waiting for the mutex in `allocateSpan`. -/
  | allocateSpan (index size : Nat)
  /-- Waiting for `locks_[index]` in `returnRange`. -/
  | returnRange (start : Addr) (bytes index : Nat)
  deriving DecidableEq, Repr

/-- The pool, with what the code does not keep: where the threads are, and the two lists. -/
structure MemoryPool (T : Type) where
  mem : Words
  pageCache : PageCache
  centralCache : CentralCache
  threads : T → ThreadCache
  calls : T → PoolCall
  /-- The pointers that users hold, with the sizes they asked for. -/
  live : List (Addr × Nat)
  /-- The spans that were cut into blocks, with the size class of their blocks. -/
  carved : List (Addr × Nat)

/-- The actions of the threads and of the users of the pool. -/
inductive PoolAct (T : Type) where
  | allocate (t : T) (size : Nat)
  | fetchRange (t : T)
  | allocateSpan (t : T) (mmap : Option Addr)
  | deallocate (t : T) (ptr : Addr) (size : Nat)
  | returnRange (t : T)
  | write (addr value : Addr)
  deriving DecidableEq, Repr

namespace MemoryPool

variable {T : Type}

/-- Nothing was allocated; the words of the memory have any contents. -/
def start (mem : Words) : MemoryPool T :=
  ⟨mem, .new, .new, fun _ => .new, fun _ => .idle, [], []⟩

/-- Store `centralFreeList_[index]`. -/
def setCentral (s : MemoryPool T) (index : Nat) (head : Addr) : MemoryPool T :=
  { s with centralCache := { s.centralCache with
      centralFreeList_ := Function.update s.centralCache.centralFreeList_ index head } }

/-- Take or clear `locks_[index]`. -/
def setLock (s : MemoryPool T) (index : Nat) (held : Bool) : MemoryPool T :=
  { s with centralCache := { s.centralCache with
      locks_ := Function.update s.centralCache.locks_ index held } }

variable [DecidableEq T]

/-- Assign the `ThreadCache` of a thread. -/
def setThread (s : MemoryPool T) (t : T) (cache : ThreadCache) : MemoryPool T :=
  { s with threads := Function.update s.threads t cache }

/-- Move a thread in its call. -/
def setCall (s : MemoryPool T) (t : T) (call : PoolCall) : MemoryPool T :=
  { s with calls := Function.update s.calls t call }

/-! ## §2 allocate -/

/-- `allocate`. -/
def allocate (s : MemoryPool T) (t : T) (size : Nat) : MemoryPool T :=
  let bytes := if size = 0 then ALIGNMENT else size
  if bytes > MAX_BYTES then s
  else
    let index := getIndex bytes
    let cache := (s.threads t).beginAllocate index
    let ptr := cache.freeList_ index
    if ptr ≠ 0 then
      { s.setThread t (cache.setFreeList index (s.mem ptr)) with live := (ptr, size) :: s.live }
    else if index ≥ FREE_LIST_SIZE ∨ ThreadCache.getBatchNum (blockSize index) = 0 then
      s.setThread t cache
    else (s.setThread t cache).setCall t (.fetchRange index size)

/-- `fetchRange` has returned the list at `start`: the rest of `fetchFromCentralCache` and of
    `allocate`. -/
def deliver (s : MemoryPool T) (t : T) (index size : Nat) (start : Addr) : MemoryPool T :=
  let s := (s.setThread t ((s.threads t).takeRange s.mem index start)).setCall t .idle
  { s with live := (start, size) :: s.live }

/-- `fetchRange` once the lock is taken: from the central list, or up to the mutex. -/
def fetchRange (s : MemoryPool T) (t : T) (index size : Nat) : MemoryPool T :=
  let result := s.centralCache.centralFreeList_ index
  if result = 0 then (s.setLock index true).setCall t (.allocateSpan index size)
  else
    let (mem, current) :=
      CentralCache.takeBatch s.mem result (ThreadCache.getBatchNum (blockSize index))
    deliver ({ s with mem := mem }.setCentral index current) t index size result

/-- `fetchRange` from the mutex of `allocateSpan` on. -/
def allocateSpan (s : MemoryPool T) (t : T) (index size : Nat) (mmap : Option Addr) :
    Option (MemoryPool T) :=
  (CentralCache.fetchFromPageCache s.mem s.pageCache (blockSize index) mmap).map fun span =>
    let s := { s with mem := span.1, pageCache := span.2.1 }.setLock index false
    match span.2.2 with
    | none => s.setCall t .idle
    | some start =>
      let (mem, remainStart) :=
        CentralCache.carveSpan s.mem start (blockSize index)
          (ThreadCache.getBatchNum (blockSize index))
      let s := { s with mem := mem, carved := (start, index) :: s.carved }
      let s := match remainStart with
        | some remainStart => s.setCentral index remainStart
        | none => s
      s.deliver t index size start

/-! ## §3 deallocate -/

/-- The push of `deallocate` onto the thread's own list. -/
def pushBlock (s : MemoryPool T) (t : T) (ptr : Addr) (index : Nat) : MemoryPool T :=
  let (mem, cache) := (s.threads t).push s.mem index ptr
  { { s with mem := mem }.setThread t cache with
    live := s.live.filter (fun b => b.1 ≠ ptr) }

/-- `returnToCentralCache` up to the spin lock of `returnRange`. -/
def giveBack (s : MemoryPool T) (t : T) (size : Nat) : MemoryPool T :=
  let index := getIndex size
  let (mem, cache, call) :=
    (s.threads t).returnToCentralCache s.mem ((s.threads t).freeList_ index) size
  let s := { s with mem := mem }.setThread t cache
  match call with
  | none => s
  | some (start, bytes) =>
    if start = 0 ∨ index ≥ FREE_LIST_SIZE then s else s.setCall t (.returnRange start bytes index)

/-- `deallocate`. -/
def deallocate (s : MemoryPool T) (t : T) (ptr : Addr) (size : Nat) : MemoryPool T :=
  if size > MAX_BYTES then s
  else
    let index := getIndex size
    let s := s.pushBlock t ptr index
    if (s.threads t).shouldReturnToCentralCache index then s.giveBack t size else s

/-- `returnRange` once the lock is taken. -/
def returnRange (s : MemoryPool T) (t : T) (start : Addr) (bytes index : Nat) : MemoryPool T :=
  let mem := CentralCache.spliceRange s.mem start bytes (s.centralCache.centralFreeList_ index)
  ({ s with mem := mem }.setCentral index start).setCall t .idle

end MemoryPool

/-! ## §4 The machine -/

variable {T : Type} [DecidableEq T]

open MemoryPool

/-- The pool: a thread makes one call at a time and waits for its locks; a live pointer is
    freed with a size of its size class; users write into live blocks. -/
def memoryPoolMachine (T : Type) [DecidableEq T] : Machine (MemoryPool T) (PoolAct T) where
  enabled s
    | .allocate t _ => s.calls t = .idle
    | .fetchRange t =>
      match s.calls t with
      | .fetchRange index _ => !s.centralCache.locks_ index
      | _ => false
    | .allocateSpan t mmap =>
      match s.calls t with
      | .allocateSpan index _ =>
        mmapReturns s.pageCache.mmapped (CentralCache.spanPages (blockSize index)) mmap
      | _ => false
    | .deallocate t ptr size =>
      decide (s.calls t = .idle) &&
        if size > MAX_BYTES then !s.live.any (fun b => b.1 = ptr)
        else s.live.any (fun b => b.1 = ptr && getIndex b.2 = getIndex size)
    | .returnRange t =>
      match s.calls t with
      | .returnRange _ _ index => !s.centralCache.locks_ index
      | _ => false
    | .write addr _ =>
      decide (addr % ALIGNMENT = 0) &&
        s.live.any (fun b => b.1 ≤ addr && addr < b.1 + blockSize (getIndex b.2))
  step s
    | .allocate t size => some (s.allocate t size)
    | .fetchRange t =>
      match s.calls t with
      | .fetchRange index size => some (s.fetchRange t index size)
      | _ => none
    | .allocateSpan t mmap =>
      match s.calls t with
      | .allocateSpan index size => s.allocateSpan t index size mmap
      | _ => none
    | .deallocate t ptr size => some (s.deallocate t ptr size)
    | .returnRange t =>
      match s.calls t with
      | .returnRange start bytes index => some (s.returnRange t start bytes index)
      | _ => none
    | .write addr value => some { s with mem := Function.update s.mem addr value }

/-- A thread that can go on with `fetchRange` waits for a free lock. -/
theorem fetchRange_enabled {s : MemoryPool T} {t : T}
    (h : (memoryPoolMachine T).enabled s (.fetchRange t) = true) :
    ∃ index size, s.calls t = .fetchRange index size ∧ s.centralCache.locks_ index = false := by
  simp only [memoryPoolMachine] at h
  cases hcall : s.calls t with
  | fetchRange index size =>
    rw [hcall] at h
    exact ⟨index, size, rfl, by simpa using h⟩
  | _ =>
    rw [hcall] at h
    cases h

/-- A thread that can go on with `allocateSpan` waits for the mutex, and for what `mmap` returns. -/
theorem allocateSpan_enabled {s : MemoryPool T} {t : T} {mmap : Option Addr}
    (h : (memoryPoolMachine T).enabled s (.allocateSpan t mmap) = true) :
    ∃ index size, s.calls t = .allocateSpan index size ∧
      mmapReturns s.pageCache.mmapped (CentralCache.spanPages (blockSize index)) mmap = true := by
  simp only [memoryPoolMachine] at h
  cases hcall : s.calls t with
  | allocateSpan index size =>
    rw [hcall] at h
    exact ⟨index, size, rfl, h⟩
  | _ =>
    rw [hcall] at h
    cases h

/-- A thread that can go on with `returnRange` waits for a free lock. -/
theorem returnRange_enabled {s : MemoryPool T} {t : T}
    (h : (memoryPoolMachine T).enabled s (.returnRange t) = true) :
    ∃ start bytes index, s.calls t = .returnRange start bytes index ∧
      s.centralCache.locks_ index = false := by
  simp only [memoryPoolMachine] at h
  cases hcall : s.calls t with
  | returnRange start bytes index =>
    rw [hcall] at h
    exact ⟨start, bytes, index, rfl, by simpa using h⟩
  | _ =>
    rw [hcall] at h
    cases h

/-- What an action finds and leaves when it does not fault. -/
inductive PoolStep (s : MemoryPool T) : PoolAct T → MemoryPool T → Prop where
  | allocate (t : T) (size : Nat) : PoolStep s (.allocate t size) (s.allocate t size)
  | fetchRange {t : T} {index size : Nat} (hcall : s.calls t = .fetchRange index size) :
      PoolStep s (.fetchRange t) (s.fetchRange t index size)
  | allocateSpan {t : T} {index size : Nat} {mmap : Option Addr} {s' : MemoryPool T}
      (hcall : s.calls t = .allocateSpan index size)
      (hspan : s.allocateSpan t index size mmap = some s') : PoolStep s (.allocateSpan t mmap) s'
  | deallocate (t : T) (ptr : Addr) (size : Nat) :
      PoolStep s (.deallocate t ptr size) (s.deallocate t ptr size)
  | returnRange {t : T} {start : Addr} {bytes index : Nat}
      (hcall : s.calls t = .returnRange start bytes index) :
      PoolStep s (.returnRange t) (s.returnRange t start bytes index)
  | write (addr value : Addr) :
      PoolStep s (.write addr value) { s with mem := Function.update s.mem addr value }

/-- An action that does not fault finds its thread in the call that it goes on with. -/
theorem poolStep_of_step {s s' : MemoryPool T} {a : PoolAct T}
    (hstep : (memoryPoolMachine T).step s a = some s') : PoolStep s a s' := by
  cases a with
  | allocate t size =>
    cases hstep
    exact .allocate t size
  | deallocate t ptr size =>
    cases hstep
    exact .deallocate t ptr size
  | write addr value =>
    cases hstep
    exact .write addr value
  | fetchRange t =>
    simp only [memoryPoolMachine] at hstep
    cases hcall : s.calls t with
    | fetchRange index size =>
      rw [hcall] at hstep
      cases hstep
      exact .fetchRange hcall
    | _ =>
      rw [hcall] at hstep
      cases hstep
  | allocateSpan t mmap =>
    simp only [memoryPoolMachine] at hstep
    cases hcall : s.calls t with
    | allocateSpan index size =>
      rw [hcall] at hstep
      exact .allocateSpan hcall hstep
    | _ =>
      rw [hcall] at hstep
      cases hstep
  | returnRange t =>
    simp only [memoryPoolMachine] at hstep
    cases hcall : s.calls t with
    | returnRange start bytes index =>
      rw [hcall] at hstep
      cases hstep
      exact .returnRange hcall
    | _ =>
      rw [hcall] at hstep
      cases hstep

end RainWebServer.Memory
