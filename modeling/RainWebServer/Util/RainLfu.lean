import Mathlib.Algebra.Order.Ring.Int
import Mathlib.Data.List.AList

/-!
# RainLfu: the LFU Cache

Embeds `include/util/RainLfu.h`: `FreqList`, and the operations of `RainLfu` with the
aging pass that lowers all frequencies when their average exceeds `maxAverageNum_`.

## Representation

- A `shared_ptr<Node>` is a number (`NodePtr`) into the store `heap`, so that a node
  keeps its identity while its frequency and value change.
- A `FreqList` is the list of its nodes between the two sentinels, oldest first.
  `getFirstNode` of an empty list is the tail sentinel; it is `none` here.
- The `unordered_map`s are association lists without duplicate keys (`AList`). Nothing
  depends on their order except the aging pass, whose order the environment supplies.
- `int` is `ℤ`: the counters are unbounded. In the code they do not overflow as long as there are
  fewer than `2 ^ 31` accesses and `maxAverageNum_` is not negative (`RainLfuRange`).
- The average is the quotient of an `int` and a `size_t`, of which an `int` is kept (`divSize`).

## Faults

An operation is `none` when the code dereferences a null `FreqList *`.
-/

namespace RainWebServer.Util

/-! ## §1 Nodes and frequency lists -/

/-- The address of a `FreqList::Node`. -/
abbrev NodePtr := Nat

/-- `FreqList::Node`, without the links that `FreqList.nodes` stands for. -/
structure Node (Key Value : Type) where
  freq : Int
  key : Key
  value : Value
  deriving DecidableEq, Inhabited

/-- `FreqList`: the nodes between `head_` and `tail_`. -/
structure FreqList where
  freq_ : Int
  nodes : List NodePtr
  deriving DecidableEq

namespace FreqList

/-- The constructor: the two sentinels point at each other. -/
def new (n : Int) : FreqList := ⟨n, []⟩

/-- `head_->next == tail_`. -/
def isEmpty (l : FreqList) : Bool := l.nodes.isEmpty

/-- `addNode` links the node in before `tail_`. -/
def addNode (l : FreqList) (p : NodePtr) : FreqList := { l with nodes := l.nodes ++ [p] }

/-- `removeNode` unlinks the node. -/
def removeNode (l : FreqList) (p : NodePtr) : FreqList := { l with nodes := l.nodes.erase p }

/-- `head_->next`; `none` is the sentinel `tail_`. -/
def getFirstNode (l : FreqList) : Option NodePtr := l.nodes.head?

end FreqList

/-! ## §2 The cache -/

/-- The members of `RainLfu`, and the store of its nodes. -/
structure RainLfu (Key Value : Type) where
  capacity_ : Int
  minFreq_ : Int
  maxAverageNum_ : Int
  curAverageNum_ : Int
  curTotalNum_ : Int
  nodeMap_ : AList (fun _ : Key => NodePtr)
  freqToFreqList_ : AList (fun _ : Int => Option FreqList)
  heap : NodePtr → Node Key Value
  /-- The address that the next `make_shared` returns. -/
  fresh : NodePtr

/-- `INT8_MAX`. -/
def int8Max : Int := 127

/-- `total / size` of an `int` and a `size_t`. A negative total becomes a `size_t` first, and what
    is left of the quotient in an `int` is the result. -/
def divSize (total : Int) (size : Nat) : Int :=
  if 0 ≤ total then total / size else ((2 ^ 64 + total) / size).bmod (2 ^ 32)

theorem divSize_of_nonneg {total : Int} (h : 0 ≤ total) (size : Nat) :
    divSize total size = total / size := if_pos h

/-- What the environment of one operation chooses: the order in which `nodeMap_` is
    iterated, and the key stored in a sentinel, which no constructor initialises. -/
structure Env (Key : Type) where
  order : List NodePtr → List NodePtr
  order_perm : ∀ l, (order l).Perm l
  sentinelKey : Key

namespace RainLfu

variable {Key Value : Type}

/-- The constructor `RainLfu(capacity, maxAverageNum)`; both are values of `int`. -/
def new [Inhabited Key] [Inhabited Value] (capacity maxAverageNum : Int) :
    RainLfu Key Value where
  capacity_ := capacity
  minFreq_ := int8Max
  maxAverageNum_ := maxAverageNum
  curAverageNum_ := 0
  curTotalNum_ := 0
  nodeMap_ := ∅
  freqToFreqList_ := ∅
  heap := fun _ => default
  fresh := 0

/-- `nodeMap_.size()`. -/
def size (s : RainLfu Key Value) : Nat := s.nodeMap_.entries.length

/-- The node pointers of `nodeMap_`. -/
def nodePtrs (s : RainLfu Key Value) : List NodePtr := s.nodeMap_.entries.map (·.2)

/-- `freqToFreqList_[f]`; `none` when it is null, or absent and therefore null. -/
def listAt (s : RainLfu Key Value) (f : Int) : Option FreqList :=
  (s.freqToFreqList_.lookup f).join

/-- `minFreq_ = f`. -/
@[simps]
def setMinFreq (s : RainLfu Key Value) (f : Int) : RainLfu Key Value := { s with minFreq_ := f }

/-- Replace `freqToFreqList_`. -/
@[simps]
def setLists (s : RainLfu Key Value) (lists : AList (fun _ : Int => Option FreqList)) :
    RainLfu Key Value :=
  { s with freqToFreqList_ := lists }

/-- `node->freq = f`. -/
@[simps]
def setFreq (s : RainLfu Key Value) (p : NodePtr) (f : Int) : RainLfu Key Value :=
  { s with heap := Function.update s.heap p { s.heap p with freq := f } }

/-- `node->value = v`. -/
@[simps]
def setValue (s : RainLfu Key Value) (p : NodePtr) (v : Value) : RainLfu Key Value :=
  { s with heap := Function.update s.heap p { s.heap p with value := v } }

/-- `removeFromFreqList`. -/
def removeFromFreqList (s : RainLfu Key Value) (p : NodePtr) : Option (RainLfu Key Value) := do
  let freq := (s.heap p).freq
  -- a null list would be dereferenced
  let l ← s.listAt freq
  some (s.setLists (s.freqToFreqList_.insert freq (some (l.removeNode p))))

/-- `addToFreqList` creates the list of the node's frequency when it does not exist. -/
def addToFreqList (s : RainLfu Key Value) (p : NodePtr) : Option (RainLfu Key Value) := do
  let freq := (s.heap p).freq
  let lists := if freq ∈ s.freqToFreqList_ then s.freqToFreqList_
    else s.freqToFreqList_.insert freq (some (FreqList.new freq))
  let l ← (lists.lookup freq).join
  some (s.setLists (lists.insert freq (some (l.addNode p))))

/-- The loop of `updateMinFreq`: the least frequency of a non-empty list, or the start
    value `m` if that is smaller. -/
def leastListed (m : Int) (lists : List (Σ _ : Int, Option FreqList)) : Int :=
  lists.foldl (fun m pair =>
    match pair.2 with
    | some l => if l.isEmpty then m else min m pair.1
    | none => m) m

/-- `updateMinFreq`, which looks for the least frequency below `INT8_MAX`. -/
def updateMinFreq (s : RainLfu Key Value) : RainLfu Key Value :=
  let found := leastListed int8Max s.freqToFreqList_.entries
  -- the start value also means that no list has a node
  s.setMinFreq (if found = int8Max then 1 else found)

/-- The frequency to which the aging pass lowers `freq`. -/
def agedFreq (maxAverageNum freq : Int) : Int :=
  if freq - maxAverageNum.tdiv 2 < 1 then 1 else freq - maxAverageNum.tdiv 2

/-- One iteration of the loop of `handleOverMaxAverageNum`. -/
def ageNode (s : RainLfu Key Value) (p : NodePtr) : Option (RainLfu Key Value) := do
  -- the list is found by the frequency that the node still has
  let s ← s.removeFromFreqList p
  let s := s.setFreq p (agedFreq s.maxAverageNum_ (s.heap p).freq)
  s.addToFreqList p

/-- `handleOverMaxAverageNum`. -/
def handleOverMaxAverageNum (s : RainLfu Key Value) (env : Env Key) :
    Option (RainLfu Key Value) :=
  if s.size = 0 then some s
  else do
    let s ← (env.order s.nodePtrs).foldlM ageNode s
    some s.updateMinFreq

/-- The new `curAverageNum_`, for a new `curTotalNum_` that is an `int`. -/
def averageOf (s : RainLfu Key Value) (total : Int) : Int :=
  if s.size = 0 then 0 else divSize total s.size

/-- Set `curTotalNum_`, and `curAverageNum_` to match. -/
@[simps]
def setTotal (s : RainLfu Key Value) (total : Int) : RainLfu Key Value :=
  { s with curTotalNum_ := total, curAverageNum_ := s.averageOf total }

/-- `addFreqNum`. -/
def addFreqNum (s : RainLfu Key Value) (env : Env Key) : Option (RainLfu Key Value) :=
  let s := s.setTotal (s.curTotalNum_ + 1)
  if s.curAverageNum_ > s.maxAverageNum_ then s.handleOverMaxAverageNum env else some s

/-- `decreaseFreqNum`. -/
def decreaseFreqNum (s : RainLfu Key Value) (num : Int) : RainLfu Key Value :=
  s.setTotal (s.curTotalNum_ - num)

section Keyed

variable [DecidableEq Key]

/-- `nodeMap_.erase(key)`. -/
@[simps]
def eraseKey (s : RainLfu Key Value) (key : Key) : RainLfu Key Value :=
  { s with nodeMap_ := s.nodeMap_.erase key }

/-- `kickOut`. The tail sentinel has frequency 1 and a null `next`, so that its
    `removeNode` returns early and only the entry of its key is erased. -/
def kickOut (s : RainLfu Key Value) (env : Env Key) : Option (RainLfu Key Value) := do
  let l ← s.listAt s.minFreq_
  match l.getFirstNode with
  | some p =>
    let s ← s.removeFromFreqList p
    let node := s.heap p
    some ((s.eraseKey node.key).decreaseFreqNum node.freq)
  | none =>
    let _ ← s.listAt 1
    some ((s.eraseKey env.sentinelKey).decreaseFreqNum 1)

/-- The state in which a new node for `key` has been made and entered into `nodeMap_`. -/
@[simps]
def makeNode (s : RainLfu Key Value) (key : Key) (value : Value) : RainLfu Key Value :=
  { s with
    heap := Function.update s.heap s.fresh ⟨1, key, value⟩
    nodeMap_ := s.nodeMap_.insert key s.fresh
    fresh := s.fresh + 1 }

/-- `putInternal`. -/
def putInternal (s : RainLfu Key Value) (env : Env Key) (key : Key) (value : Value) :
    Option (RainLfu Key Value) := do
  let s ← if (s.size : Int) = s.capacity_ then s.kickOut env else some s
  let node := s.fresh
  let s ← (s.makeNode key value).addToFreqList node
  let s ← s.addFreqNum env
  some (s.setMinFreq (min s.minFreq_ 1))

/-- The test in `getInternal` after which `minFreq_` moves up with the node. -/
def leftMinList (s : RainLfu Key Value) (p : NodePtr) : Option Bool :=
  if (s.heap p).freq - 1 = s.minFreq_ then (s.listAt ((s.heap p).freq - 1)).map FreqList.isEmpty
  else some false

/-- `getInternal`, with the value it hands out. -/
def getInternal (s : RainLfu Key Value) (env : Env Key) (p : NodePtr) :
    Option (Value × RainLfu Key Value) := do
  let value := (s.heap p).value
  let s ← s.removeFromFreqList p
  let s ← (s.setFreq p ((s.heap p).freq + 1)).addToFreqList p
  let moved ← s.leftMinList p
  let s := if moved then s.setMinFreq (s.minFreq_ + 1) else s
  let s ← s.addFreqNum env
  some (value, s)

/-- `put`. -/
def put (s : RainLfu Key Value) (env : Env Key) (key : Key) (value : Value) :
    Option (RainLfu Key Value) :=
  if s.capacity_ = 0 then some s
  else
    match s.nodeMap_.lookup key with
    | some p => ((s.setValue p value).getInternal env p).map (·.2)
    | none => s.putInternal env key value

/-- `get`: the value on a hit, `none` on a miss. -/
def get (s : RainLfu Key Value) (env : Env Key) (key : Key) :
    Option (Option Value × RainLfu Key Value) :=
  match s.nodeMap_.lookup key with
  | some p => (s.getInternal env p).map (fun r => (some r.1, r.2))
  | none => some (none, s)

/-- `purge` clears the two maps and leaves the counters as they are. -/
@[simps]
def purge (s : RainLfu Key Value) : RainLfu Key Value :=
  { s with nodeMap_ := ∅, freqToFreqList_ := ∅ }

/-! ## §3 Runs -/

/-- One operation on the cache. -/
inductive Op (Key Value : Type) where
  | put (key : Key) (value : Value)
  | get (key : Key)
  | purge
  deriving DecidableEq

/-- The state after one operation. -/
def apply (s : RainLfu Key Value) (env : Env Key) : Op Key Value → Option (RainLfu Key Value)
  | .put key value => s.put env key value
  | .get key => (s.get env key).map (·.2)
  | .purge => some s.purge

/-- The state after a sequence of operations, each with the choices of its environment. -/
def applyAll (s : RainLfu Key Value) :
    List (Op Key Value × Env Key) → Option (RainLfu Key Value)
  | [] => some s
  | (op, env) :: rest => (s.apply env op).bind (fun t => applyAll t rest)

end Keyed

end RainLfu

end RainWebServer.Util
