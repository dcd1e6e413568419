import RainWebServer.Util.ConsistentHash
import Mathlib

/-!
# EventLoopThreadPool: Choosing the Loop of a Connection

Embeds `src/net/EventLoopThreadPool.cc`: `start` makes one loop per thread and adds the
thread's name to the hash ring, and `getNextLoop` asks the ring for the key's node.

The ring answers with a *position*, a hash value. `getNextLoop` uses it as an *index* into
`loops_`. `getNextLoop_dispatches_iff` says when the two readings agree.
-/

namespace RainWebServer.Net

open RainWebServer.Util

/-! ## §1 The pool -/

/-- An `EventLoop *`: the loop that the user made, or the one of a pool thread. Each lives in
    its own thread, so the addresses are different. -/
inductive Loop where
  | baseLoop
  | subLoop (i : Nat)
  deriving DecidableEq, Repr

/-- The members of `EventLoopThreadPool` that dispatch uses. -/
structure EventLoopThreadPool where
  baseLoop_ : Loop
  name_ : String
  started_ : Bool
  numThreads_ : Nat
  loops_ : List Loop
  hash_ : ConsistentHash

namespace EventLoopThreadPool

/-- The constructor: three virtual nodes for each thread. -/
def new (name : String) (hashFunc : String → Nat) : EventLoopThreadPool where
  baseLoop_ := .baseLoop
  name_ := name
  started_ := false
  numThreads_ := 0
  loops_ := []
  hash_ := .new 3 hashFunc

/-- `setThreadNum`. -/
def setThreadNum (pool : EventLoopThreadPool) (numThreads : Nat) : EventLoopThreadPool :=
  { pool with numThreads_ := numThreads }

/-- The characters that `c_str()` shows to `snprintf`. -/
def cStr (s : String) : String := String.ofList (s.toList.takeWhile (· ≠ '\x00'))

/-- The name `"%s%d"` of the `i`-th thread. -/
def threadName (name : String) (i : Nat) : String := cStr name ++ toString i

/-- One iteration of the loop of `start`. -/
def startThread (pool : EventLoopThreadPool) (i : Nat) : EventLoopThreadPool :=
  { pool with
    loops_ := pool.loops_ ++ [.subLoop i]
    hash_ := pool.hash_.addNode (threadName pool.name_ i) }

/-- `start`. -/
def start (pool : EventLoopThreadPool) : EventLoopThreadPool :=
  (List.range pool.numThreads_).foldl startThread { pool with started_ := true }

/-- `getNextLoop`; an exception of the ring passes through. -/
def getNextLoop (pool : EventLoopThreadPool) (key : String) : Except RingError Loop := do
  let index ← pool.hash_.getNode key
  match pool.loops_[index]? with
  | some loop => .ok loop
  | none => .ok pool.baseLoop_

/-- `getAllLoops`. -/
def getAllLoops (pool : EventLoopThreadPool) : List Loop :=
  if pool.loops_.isEmpty then [pool.baseLoop_] else pool.loops_

/-! ## §2 The ring of a started pool -/

/-- Thread `i` has a virtual node at position `x`. -/
def HasVirtualNode (name : String) (hash : String → Nat) (i x : Nat) : Prop :=
  ∃ r < 3, hash (threadName name i ++ "_0" ++ toString r) = x

instance (name : String) (hash : String → Nat) (i x : Nat) :
    Decidable (HasVirtualNode name hash i x) :=
  inferInstanceAs (Decidable (∃ r < 3, hash (threadName name i ++ "_0" ++ toString r) = x))

/-- Thread `i` owns position `x`: it is the last thread with a virtual node there. -/
def Owns (name : String) (hash : String → Nat) (numThreads i x : Nat) : Prop :=
  i < numThreads ∧ HasVirtualNode name hash i x ∧
    ∀ j < numThreads, i < j → ¬ HasVirtualNode name hash j x

/-- The positions of the ring of a pool with `numThreads` threads. -/
def OnRing (name : String) (hash : String → Nat) (numThreads x : Nat) : Prop :=
  ∃ i < numThreads, HasVirtualNode name hash i x

theorem threadName_inj {name : String} {i j : Nat} (h : threadName name i = threadName name j) :
    i = j := by
  simp only [threadName, String.append_right_inj] at h
  exact Nat.repr_inj.mp h

/-- What is known of a pool whose first `n` threads have been started. -/
structure Started (name : String) (hash : String → Nat) (n : Nat) (pool : EventLoopThreadPool) :
    Prop where
  name_eq : pool.name_ = name
  base_eq : pool.baseLoop_ = .baseLoop
  hash_eq : pool.hash_.hashFunction_ = hash
  replicas_eq : pool.hash_.numReplicas_ = 3
  loops_eq : pool.loops_ = (List.range n).map Loop.subLoop
  sorted : pool.hash_.sortedHashes_.Pairwise (· ≤ ·)
  mem_sortedHashes : ∀ x, x ∈ pool.hash_.sortedHashes_ ↔ OnRing name hash n x
  lookup_circle : ∀ x node, pool.hash_.circle_.lookup x = some node ↔
    ∃ i, node = threadName name i ∧ Owns name hash n i x

/-- A thread that is started takes over the positions of its virtual nodes. -/
theorem Started.startThread {name : String} {hash : String → Nat} {n : Nat}
    {pool : EventLoopThreadPool} (h : Started name hash n pool) :
    Started name hash (n + 1) (pool.startThread n) := by
  have hvirtual : ∀ x, (∃ i < pool.hash_.numReplicas_,
      pool.hash_.virtualHash (threadName pool.name_ n) i = x) ↔ HasVirtualNode name hash n x := by
    intro x
    simp only [h.replicas_eq, ConsistentHash.virtualHash, h.hash_eq, h.name_eq, HasVirtualNode]
  constructor
  case name_eq => exact h.name_eq
  case base_eq => exact h.base_eq
  case hash_eq => exact (ConsistentHash.addNode_params _ _).2.trans h.hash_eq
  case replicas_eq => exact (ConsistentHash.addNode_params _ _).1.trans h.replicas_eq
  case loops_eq => simp [EventLoopThreadPool.startThread, h.loops_eq, List.range_succ]
  case sorted => exact ConsistentHash.pairwise_sortedHashes_addNode _ _
  case mem_sortedHashes =>
    intro x
    refine (ConsistentHash.mem_sortedHashes_addNode _ _ x).trans ?_
    rw [hvirtual, h.mem_sortedHashes]
    constructor
    · rintro (⟨i, hi, hx⟩ | hx)
      · exact ⟨i, Nat.lt_succ_of_lt hi, hx⟩
      · exact ⟨n, Nat.lt_succ_self n, hx⟩
    · rintro ⟨i, hi, hx⟩
      rcases Nat.lt_succ_iff_lt_or_eq.mp hi with hlt | rfl
      · exact .inl ⟨i, hlt, hx⟩
      · exact .inr hx
  case lookup_circle =>
    intro x node
    -- `circle_[hash] = node` takes over a position that an earlier thread had
    have hlook : (pool.startThread n).hash_.circle_.lookup x =
        if HasVirtualNode name hash n x then some (threadName name n)
        else pool.hash_.circle_.lookup x := by
      refine (ConsistentHash.lookup_circle_addNode _ _ x).trans ?_
      exact if_congr (hvirtual x) (by rw [h.name_eq]) rfl
    rw [hlook]
    by_cases hn : HasVirtualNode name hash n x
    · -- the new thread is the last one with a virtual node there
      rw [if_pos hn, Option.some.injEq]
      constructor
      · rintro rfl
        exact ⟨n, rfl, Nat.lt_succ_self n, hn, fun j hj hnj => absurd hj (by omega)⟩
      · rintro ⟨i, rfl, hi, -, hlast⟩
        rcases Nat.lt_succ_iff_lt_or_eq.mp hi with hlt | rfl
        · exact absurd hn (hlast n (Nat.lt_succ_self n) hlt)
        · rfl
    · rw [if_neg hn, h.lookup_circle]
      constructor
      · rintro ⟨i, rfl, hi, hx, hlast⟩
        refine ⟨i, rfl, Nat.lt_succ_of_lt hi, hx, fun j hj hij => ?_⟩
        rcases Nat.lt_succ_iff_lt_or_eq.mp hj with hlt | rfl
        · exact hlast j hlt hij
        · exact hn
      · rintro ⟨i, rfl, hi, hx, hlast⟩
        rcases Nat.lt_succ_iff_lt_or_eq.mp hi with hlt | rfl
        · exact ⟨i, rfl, hlt, hx, fun j hj hij => hlast j (Nat.lt_succ_of_lt hj) hij⟩
        · exact absurd hx hn

/-- The pool that a server gets from `setThreadNum` and `start`. -/
def startedPool (name : String) (hash : String → Nat) (numThreads : Nat) : EventLoopThreadPool :=
  ((new name hash).setThreadNum numThreads).start

theorem started_startedPool (name : String) (hash : String → Nat) (numThreads : Nat) :
    Started name hash numThreads (startedPool name hash numThreads) := by
  -- induction on the number of threads that the loop has started
  have hloop : ∀ n, Started name hash n ((List.range n).foldl EventLoopThreadPool.startThread
      { (new name hash).setThreadNum numThreads with started_ := true }) := by
    intro n
    induction n with
    | zero =>
      refine ⟨rfl, rfl, rfl, rfl, rfl, List.Pairwise.nil, fun x => ?_, fun x node => ?_⟩
      · simp [OnRing, setThreadNum, new, ConsistentHash.new]
      · simp [Owns, setThreadNum, new, ConsistentHash.new]
    | succ n ih =>
      rw [List.range_succ, List.foldl_append]
      exact ih.startThread
  exact hloop numThreads

/-! ## §3 Dispatch -/

/-- A key is dispatched as intended: `getNextLoop` returns one of the pool's loops, the base
    loop of a single-threaded server or else the loop of the thread that owns the position
    selected for the key. -/
def Dispatches (name : String) (hash : String → Nat) (numThreads : Nat) (key : String) : Prop :=
  ∃ loop, (startedPool name hash numThreads).getNextLoop key = .ok loop ∧
    loop ∈ (startedPool name hash numThreads).getAllLoops ∧
    (numThreads = 0 → loop = (startedPool name hash numThreads).baseLoop_) ∧
    (0 < numThreads → ∃ position i,
      (startedPool name hash numThreads).hash_.getNode key = .ok position ∧
      (startedPool name hash numThreads).hash_.circle_.lookup position =
        some (threadName name i) ∧
      (startedPool name hash numThreads).loops_[i]? = some loop)

/-- A pool without threads has an empty ring, whose lookup throws. -/
theorem getNextLoop_no_threads (name : String) (hash : String → Nat) (key : String) :
    (startedPool name hash 0).getNextLoop key =
      .error (.runtimeError "No nodes in consistent hash") := rfl

/-- With threads the ring has a node, so the lookup returns the selected position. -/
theorem getNode_ok_iff_selects {name : String} {hash : String → Nat} {numThreads : Nat}
    (hpos : 0 < numThreads) (key : String) (p : Nat) :
    (startedPool name hash numThreads).hash_.getNode key = .ok p ↔
      ConsistentHash.Selects (OnRing name hash numThreads) (hash key) p := by
  have h := started_startedPool name hash numThreads
  have hnode : OnRing name hash numThreads (hash (threadName name 0 ++ "_0" ++ toString 0)) :=
    ⟨0, hpos, 0, by decide, rfl⟩
  have hcircle : (startedPool name hash numThreads).hash_.circle_.entries ≠ [] := by
    intro hnil
    -- the last thread owns each of its positions
    have hown : Owns name hash numThreads (numThreads - 1)
        (hash (threadName name (numThreads - 1) ++ "_0" ++ toString 0)) :=
      ⟨by omega, ⟨0, by decide, rfl⟩, fun j hj hlt => absurd hj (by omega)⟩
    have hlook := (h.lookup_circle _ _).mpr ⟨_, rfl, hown⟩
    have hmem := AList.mem_lookup_iff.mp hlook
    rw [hnil] at hmem
    exact absurd hmem (by simp)
  have hring : (· ∈ (startedPool name hash numThreads).hash_.sortedHashes_) =
      OnRing name hash numThreads := funext fun x => propext (h.mem_sortedHashes x)
  rw [ConsistentHash.getNode_ok_iff h.sorted hcircle, hring, h.hash_eq]

/-- **A key is dispatched as intended if and only if the position that its hash selects on the
    ring is itself the index of the thread that owns it**; in particular never in a pool
    without threads. -/
theorem getNextLoop_dispatches_iff (name : String) (hash : String → Nat) (numThreads : Nat)
    (key : String) :
    Dispatches name hash numThreads key ↔
      ∃ p, ConsistentHash.Selects (OnRing name hash numThreads) (hash key) p ∧
        Owns name hash numThreads p p := by
  have h := started_startedPool name hash numThreads
  rcases Nat.eq_zero_or_pos numThreads with rfl | hpos
  · constructor
    · rintro ⟨loop, hnext, -⟩
      rw [getNextLoop_no_threads] at hnext
      cases hnext
    · rintro ⟨p, -, hlt, -⟩
      exact absurd hlt (Nat.not_lt_zero p)
  have hget : ∀ i, (startedPool name hash numThreads).loops_[i]? =
      if i < numThreads then some (.subLoop i) else none := by
    intro i
    rw [h.loops_eq, List.getElem?_map]
    by_cases hi : i < numThreads
    · rw [if_pos hi, List.getElem?_range hi, Option.map_some]
    · rw [if_neg hi, List.getElem?_eq_none (by simpa using hi), Option.map_none]
  have hnext : ∀ p, (startedPool name hash numThreads).hash_.getNode key = .ok p →
      (startedPool name hash numThreads).getNextLoop key =
        .ok (if p < numThreads then .subLoop p else .baseLoop) := by
    intro p hp
    simp only [getNextLoop, hp, bind, Except.bind, hget, h.base_eq]
    by_cases hlt : p < numThreads <;> simp [hlt]
  constructor
  · rintro ⟨loop, hloop, -, -, hthread⟩
    obtain ⟨p, i, hp, howner, hi⟩ := hthread hpos
    obtain ⟨i', hname, hown⟩ := (h.lookup_circle p _).mp howner
    have hii := threadName_inj hname
    subst hii
    refine ⟨p, (getNode_ok_iff_selects hpos key p).mp hp, ?_⟩
    -- the loop returned for position `p` is the owner's loop only if the owner is thread `p`
    rw [hnext p hp, Except.ok.injEq] at hloop
    rw [hget, if_pos hown.1, Option.some.injEq] at hi
    rw [← hi] at hloop
    split at hloop
    · cases hloop
      exact hown
    · cases hloop
  · rintro ⟨p, hsel, hown⟩
    have hp := (getNode_ok_iff_selects hpos key p).mpr hsel
    refine ⟨.subLoop p, ?_, ?_, fun hz => absurd hz (by omega), fun _ => ?_⟩
    · rw [hnext p hp, if_pos hown.1]
    · have hmem : Loop.subLoop p ∈ (startedPool name hash numThreads).loops_ := by
        rw [h.loops_eq]
        exact List.mem_map_of_mem (List.mem_range.mpr hown.1)
      rw [getAllLoops, if_neg (by simpa using List.ne_nil_of_mem hmem)]
      exact hmem
    · exact ⟨p, p, hp, (h.lookup_circle p _).mpr ⟨p, rfl, hown⟩, by rw [hget, if_pos hown.1]⟩

/-- A single-threaded server cannot dispatch any connection, and a pool of three threads whose
    positions are large sends a key to the base loop, which is not among its loops. -/
theorem getNextLoop_not_dispatched :
    ¬ Dispatches "EchoServer" (fun _ => 7) 0 "127.0.0.1" ∧
    ¬ Dispatches "EchoServer" (fun _ => 7) 3 "127.0.0.1" := by
  constructor
  · rintro ⟨loop, hnext, -⟩
    rw [getNextLoop_no_threads] at hnext
    cases hnext
  · rintro ⟨loop, hnext, hmem, -⟩
    have hbase : (startedPool "EchoServer" (fun _ => 7) 3).getNextLoop "127.0.0.1" =
        .ok .baseLoop := by decide
    rw [hbase, Except.ok.injEq] at hnext
    subst hnext
    exact absurd hmem (by decide)

end EventLoopThreadPool

end RainWebServer.Net
