import RainWebServer.Lib.DoublyLinked
import RainWebServer.Util.RainLfuReference

/-!
# LinkedLfu: the LFU Cache with Its Links

Embeds `include/util/RainLfu.h` once more, one level below `RainLfu`: a `FreqList` is what its
`head_` and `tail_` link together, and `addNode` and `removeNode` write the fields `next` and `pre`
of the nodes. Nothing keeps the lists apart here but the writes themselves.

## Representation

- A cell of a list is a node or one of the two sentinels of a `FreqList` (`Cell`). The links of all
  cells are one memory (`Links`), since all lists share the nodes; the other fields of a node are
  in `heap`, as in `RainLfu`.
- A `FreqList *` is the number of its `new` (`ListPtr`). Its `freq_` is left out: nothing reads it.
- The counters and the average are those of `RainLfu`: unbounded, with the division of the code.
- The `weak_ptr` to the cell before is an `Option`. It expires only when its cell is freed, and a
  cell with a list behind it is not.

## Faults

An operation is `none` when the code dereferences a null pointer: a `FreqList *`, a `lock()` that
failed, or the first node of a list that is not there.
-/

namespace RainWebServer.Util

open Lib (Links)

/-! ## §1 The lists -/

/-- The address of a `FreqList`. -/
abbrev ListPtr := Nat

/-- What the links of a list lead through. -/
inductive Cell where
  | node (p : NodePtr)
  | head (l : ListPtr)
  | tail (l : ListPtr)
  deriving DecidableEq

namespace ListPtr

/-- The constructor of `FreqList`: the two sentinels point at each other. -/
def new (l : ListPtr) (m : Links Cell) : Links Cell :=
  ((((m.setNext (.head l) none).setPre (.head l) none).setNext (.tail l) none).setNext
    (.head l) (some (.tail l))).setPre (.tail l) (some (.head l))

/-- `isEmpty`. -/
def isEmpty (l : ListPtr) (m : Links Cell) : Bool := m.next (.head l) = some (.tail l)

/-- `addNode` links the node in before `tail_`. -/
def addNode (l : ListPtr) (m : Links Cell) (p : NodePtr) : Option (Links Cell) :=
  m.insertBefore (.tail l) (.node p)

/-- `removeNode`, which does not look at the list. -/
def removeNode (_l : ListPtr) (m : Links Cell) (c : Cell) : Links Cell := m.unlink c

/-- `getFirstNode`. -/
def getFirstNode (l : ListPtr) (m : Links Cell) : Option Cell := m.next (.head l)

end ListPtr

/-! ## §2 The cache -/

/-- The members of `RainLfu`, the store of its nodes and their links. -/
structure LinkedLfu (Key Value : Type) where
  capacity_ : Int
  minFreq_ : Int
  maxAverageNum_ : Int
  curAverageNum_ : Int
  curTotalNum_ : Int
  nodeMap_ : AList (fun _ : Key => NodePtr)
  freqToFreqList_ : AList (fun _ : Int => Option ListPtr)
  heap : NodePtr → Node Key Value
  links : Links Cell
  /-- The address that the next `make_shared` of a node returns. -/
  fresh : NodePtr
  /-- The address that the next `new FreqList` returns. -/
  freshList : ListPtr

namespace LinkedLfu

variable {Key Value : Type}

/-- The constructor `RainLfu(capacity, maxAverageNum)`. -/
def new [Inhabited Key] [Inhabited Value] (capacity maxAverageNum : Int) :
    LinkedLfu Key Value where
  capacity_ := capacity
  minFreq_ := int8Max
  maxAverageNum_ := maxAverageNum
  curAverageNum_ := 0
  curTotalNum_ := 0
  nodeMap_ := ∅
  freqToFreqList_ := ∅
  heap := fun _ => default
  links := ⟨fun _ => none, fun _ => none⟩
  fresh := 0
  freshList := 0

/-- `nodeMap_.size()`. -/
def size (s : LinkedLfu Key Value) : Nat := s.nodeMap_.entries.length

/-- The node pointers of `nodeMap_`. -/
def nodePtrs (s : LinkedLfu Key Value) : List NodePtr := s.nodeMap_.entries.map (·.2)

/-- `freqToFreqList_[f]`; `none` when it is null, or absent and therefore null. -/
def listAt (s : LinkedLfu Key Value) (f : Int) : Option ListPtr :=
  (s.freqToFreqList_.lookup f).join

/-- `minFreq_ = f`. -/
def setMinFreq (s : LinkedLfu Key Value) (f : Int) : LinkedLfu Key Value := { s with minFreq_ := f }

/-- `node->freq = f`. -/
def setFreq (s : LinkedLfu Key Value) (p : NodePtr) (f : Int) : LinkedLfu Key Value :=
  { s with heap := Function.update s.heap p { s.heap p with freq := f } }

/-- `node->value = v`. -/
def setValue (s : LinkedLfu Key Value) (p : NodePtr) (v : Value) : LinkedLfu Key Value :=
  { s with heap := Function.update s.heap p { s.heap p with value := v } }

/-- `cell->freq`: a sentinel has the frequency 1 of the default constructor. -/
def freqOf (s : LinkedLfu Key Value) : Cell → Int
  | .node p => (s.heap p).freq
  | .head _ | .tail _ => 1

/-- `cell->key`: that of a sentinel is the environment's. -/
def keyOf (s : LinkedLfu Key Value) (env : Env Key) : Cell → Key
  | .node p => (s.heap p).key
  | .head _ | .tail _ => env.sentinelKey

/-- `removeFromFreqList`. -/
def removeFromFreqList (s : LinkedLfu Key Value) (c : Cell) : Option (LinkedLfu Key Value) := do
  let l ← s.listAt (s.freqOf c)
  some { s with links := l.removeNode s.links c }

/-- `freqToFreqList_[freq] = new FreqList(freq)`. -/
def newFreqList (s : LinkedLfu Key Value) (freq : Int) : LinkedLfu Key Value :=
  { s with
    freqToFreqList_ := s.freqToFreqList_.insert freq (some s.freshList)
    links := ListPtr.new s.freshList s.links
    freshList := s.freshList + 1 }

/-- `addToFreqList` creates the list of the node's frequency when it does not exist. -/
def addToFreqList (s : LinkedLfu Key Value) (p : NodePtr) : Option (LinkedLfu Key Value) := do
  let freq := (s.heap p).freq
  let s := if freq ∈ s.freqToFreqList_ then s else s.newFreqList freq
  let l ← s.listAt freq
  let links ← l.addNode s.links p
  some { s with links := links }

/-- The loop of `updateMinFreq`. -/
def leastListed (links : Links Cell) (m : Int) (lists : List (Σ _ : Int, Option ListPtr)) : Int :=
  lists.foldl (fun m pair =>
    match pair.2 with
    | some l => if l.isEmpty links then m else min m pair.1
    | none => m) m

/-- `updateMinFreq`. -/
def updateMinFreq (s : LinkedLfu Key Value) : LinkedLfu Key Value :=
  let found := leastListed s.links int8Max s.freqToFreqList_.entries
  s.setMinFreq (if found = int8Max then 1 else found)

/-- One iteration of the loop of `handleOverMaxAverageNum`. -/
def ageNode (s : LinkedLfu Key Value) (p : NodePtr) : Option (LinkedLfu Key Value) := do
  let s ← s.removeFromFreqList (.node p)
  let s := s.setFreq p (RainLfu.agedFreq s.maxAverageNum_ (s.heap p).freq)
  s.addToFreqList p

/-- `handleOverMaxAverageNum`. -/
def handleOverMaxAverageNum (s : LinkedLfu Key Value) (env : Env Key) :
    Option (LinkedLfu Key Value) :=
  if s.size = 0 then some s
  else do
    let s ← (env.order s.nodePtrs).foldlM ageNode s
    some s.updateMinFreq

/-- Set `curTotalNum_`, an `int`, and `curAverageNum_` to match. -/
def setTotal (s : LinkedLfu Key Value) (total : Int) : LinkedLfu Key Value :=
  { s with
    curTotalNum_ := total
    curAverageNum_ := if s.size = 0 then 0 else divSize total s.size }

/-- `addFreqNum`. -/
def addFreqNum (s : LinkedLfu Key Value) (env : Env Key) : Option (LinkedLfu Key Value) :=
  let s := s.setTotal (s.curTotalNum_ + 1)
  if s.curAverageNum_ > s.maxAverageNum_ then s.handleOverMaxAverageNum env else some s

/-- `decreaseFreqNum`. -/
def decreaseFreqNum (s : LinkedLfu Key Value) (num : Int) : LinkedLfu Key Value :=
  s.setTotal (s.curTotalNum_ - num)

/-- The test in `getInternal` after which `minFreq_` moves up with the node. -/
def leftMinList (s : LinkedLfu Key Value) (p : NodePtr) : Option Bool :=
  if (s.heap p).freq - 1 = s.minFreq_ then
    (s.listAt ((s.heap p).freq - 1)).map (·.isEmpty s.links)
  else some false

/-- `getInternal`, with the value it hands out. -/
def getInternal (s : LinkedLfu Key Value) (env : Env Key) (p : NodePtr) :
    Option (Value × LinkedLfu Key Value) := do
  let value := (s.heap p).value
  let s ← s.removeFromFreqList (.node p)
  let s ← (s.setFreq p ((s.heap p).freq + 1)).addToFreqList p
  let moved ← s.leftMinList p
  let s := if moved then s.setMinFreq (s.minFreq_ + 1) else s
  let s ← s.addFreqNum env
  some (value, s)

section Keyed

variable [DecidableEq Key]

/-- `nodeMap_.erase(key)`. -/
def eraseKey (s : LinkedLfu Key Value) (key : Key) : LinkedLfu Key Value :=
  { s with nodeMap_ := s.nodeMap_.erase key }

/-- `kickOut` takes the first cell of the list as it is, the tail sentinel of an empty one too. -/
def kickOut (s : LinkedLfu Key Value) (env : Env Key) : Option (LinkedLfu Key Value) := do
  let l ← s.listAt s.minFreq_
  let c ← l.getFirstNode s.links
  let s ← s.removeFromFreqList c
  some ((s.eraseKey (s.keyOf env c)).decreaseFreqNum (s.freqOf c))

/-- The state in which a new node for `key` has been made, without links, and entered into
    `nodeMap_`. -/
def makeNode (s : LinkedLfu Key Value) (key : Key) (value : Value) : LinkedLfu Key Value :=
  { s with
    heap := Function.update s.heap s.fresh ⟨1, key, value⟩
    links := (s.links.setNext (.node s.fresh) none).setPre (.node s.fresh) none
    nodeMap_ := s.nodeMap_.insert key s.fresh
    fresh := s.fresh + 1 }

/-- `putInternal`. -/
def putInternal (s : LinkedLfu Key Value) (env : Env Key) (key : Key) (value : Value) :
    Option (LinkedLfu Key Value) := do
  let s ← if (s.size : Int) = s.capacity_ then s.kickOut env else some s
  let node := s.fresh
  let s ← (s.makeNode key value).addToFreqList node
  let s ← s.addFreqNum env
  some (s.setMinFreq (min s.minFreq_ 1))

/-- `put`. -/
def put (s : LinkedLfu Key Value) (env : Env Key) (key : Key) (value : Value) :
    Option (LinkedLfu Key Value) :=
  if s.capacity_ = 0 then some s
  else
    match s.nodeMap_.lookup key with
    | some p => ((s.setValue p value).getInternal env p).map (·.2)
    | none => s.putInternal env key value

/-- `get`: the value on a hit, `none` on a miss. -/
def get (s : LinkedLfu Key Value) (env : Env Key) (key : Key) :
    Option (Option Value × LinkedLfu Key Value) :=
  match s.nodeMap_.lookup key with
  | some p => (s.getInternal env p).map (fun r => (some r.1, r.2))
  | none => some (none, s)

/-- `purge` leaves the lists that nobody points to as they are. -/
def purge (s : LinkedLfu Key Value) : LinkedLfu Key Value :=
  { s with nodeMap_ := ∅, freqToFreqList_ := ∅ }

/-- One operation, with the result of a `get`. -/
def perform (s : LinkedLfu Key Value) (env : Env Key) :
    RainLfu.Op Key Value → Option (LinkedLfu Key Value × Option Value)
  | .put key value => (s.put env key value).map (fun t => (t, none))
  | .get key => (s.get env key).map (fun result => (result.2, result.1))
  | .purge => some (s.purge, none)

/-- A sequence of operations, with the results of the `get`s among them. -/
def performAll (s : LinkedLfu Key Value) :
    List (RainLfu.Op Key Value × Env Key) → Option (LinkedLfu Key Value × List (Option Value))
  | [] => some (s, [])
  | (op, env) :: rest => do
    let (t, result) ← s.perform env op
    let (u, results) ← performAll t rest
    some (u, result :: results)

end Keyed

end LinkedLfu

end RainWebServer.Util
