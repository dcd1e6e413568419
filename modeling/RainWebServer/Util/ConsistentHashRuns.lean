import Mathlib.Data.List.Count
import Mathlib.Data.List.Infix
import RainWebServer.Util.ConsistentHash

/-!
# ConsistentHash: Nodes Coming and Going

Embeds `removeNode` of `include/util/ConsistenHash.h`, and follows a ring through any sequence of
`addNode` and `removeNode`.

`circle_` has one entry for a position and `sortedHashes_` one for every virtual node that was
added there. `removeNode` erases the entry of `circle_` and one occurrence, so the two copies of the
ring stay in step exactly as long as no position occurs more often than `removeNode` computes it.

## Main results

- `addNode_moves_only_to_new` : a new node takes keys over, and moves none between old nodes
- `removeNode_inStep_iff` : when one call of `removeNode` leaves the copies in step
- `in_step_throughout_iff` : when they stay in step through a whole sequence of calls
-/

namespace RainWebServer.Util

namespace ConsistentHash

/-! ## §1 `removeNode` -/

/-- One iteration of the loop of `removeNode`: `std::find` finds the first occurrence. -/
def removeVirtualNode (node : String) (h : ConsistentHash) (i : Nat) : ConsistentHash :=
  let hash := h.hashFunction_ (node ++ toString i)
  { h with circle_ := h.circle_.erase hash, sortedHashes_ := h.sortedHashes_.erase hash }

/-- `removeNode`. -/
def removeNode (h : ConsistentHash) (node : String) : ConsistentHash :=
  (List.range h.numReplicas_).foldl (removeVirtualNode node) h

/-- The positions that `removeNode` computes for a node. -/
def removalHashes (h : ConsistentHash) (node : String) : List Nat :=
  (List.range h.numReplicas_).map fun i => h.hashFunction_ (node ++ toString i)

/-- The loop of `removeNode` over any replicas. -/
theorem foldl_removeVirtualNode (h : ConsistentHash) (node : String) (is : List Nat) :
    (is.foldl (removeVirtualNode node) h).numReplicas_ = h.numReplicas_ ∧
    (is.foldl (removeVirtualNode node) h).hashFunction_ = h.hashFunction_ ∧
    (is.foldl (removeVirtualNode node) h).sortedHashes_ =
      h.sortedHashes_.diff (is.map fun i => h.hashFunction_ (node ++ toString i)) ∧
    ∀ x, (is.foldl (removeVirtualNode node) h).circle_.lookup x =
      if x ∈ is.map (fun i => h.hashFunction_ (node ++ toString i)) then none
      else h.circle_.lookup x := by
  induction is generalizing h with
  | nil => simp
  | cons i is ih =>
    have hfunc : (removeVirtualNode node h i).hashFunction_ = h.hashFunction_ := rfl
    have hcircle : (removeVirtualNode node h i).circle_ =
        h.circle_.erase (h.hashFunction_ (node ++ toString i)) := rfl
    obtain ⟨hrep, hhash, hsorted, hlook⟩ := ih (removeVirtualNode node h i)
    simp only [hfunc, hcircle] at hsorted hlook
    refine ⟨hrep, hhash, ?_, fun x => ?_⟩
    · rw [List.foldl_cons, hsorted, List.map_cons, List.diff_cons]
      rfl
    · rw [List.foldl_cons, hlook, List.map_cons]
      by_cases hx : x = h.hashFunction_ (node ++ toString i)
      · rw [hx, AList.lookup_erase, ite_self, if_pos (List.mem_cons_self ..)]
      · rw [AList.lookup_erase_ne hx]
        simp only [List.mem_cons, hx, false_or]

/-- `removeNode` leaves the parameters of the ring alone. -/
theorem removeNode_params (h : ConsistentHash) (node : String) :
    (h.removeNode node).numReplicas_ = h.numReplicas_ ∧
    (h.removeNode node).hashFunction_ = h.hashFunction_ :=
  ⟨(foldl_removeVirtualNode h node _).1, (foldl_removeVirtualNode h node _).2.1⟩

/-- One occurrence goes for every time that a position is computed. -/
theorem sortedHashes_removeNode (h : ConsistentHash) (node : String) :
    (h.removeNode node).sortedHashes_ = h.sortedHashes_.diff (h.removalHashes node) :=
  (foldl_removeVirtualNode h node _).2.2.1

/-- Every position computed loses its node. -/
theorem lookup_circle_removeNode (h : ConsistentHash) (node : String) (x : Nat) :
    (h.removeNode node).circle_.lookup x =
      if x ∈ h.removalHashes node then none else h.circle_.lookup x :=
  (foldl_removeVirtualNode h node _).2.2.2 x

/-! ## §2 Two copies in step -/

/-- `sortedHashes_` is sorted and has the positions of `circle_`. -/
structure InStep (h : ConsistentHash) : Prop where
  sorted : h.sortedHashes_.Pairwise (· ≤ ·)
  mem_iff : ∀ x, x ∈ h.sortedHashes_ ↔ x ∈ h.circle_

theorem inStep_new (numReplicas : Nat) (hashFunc : String → Nat) :
    InStep (new numReplicas hashFunc) :=
  ⟨.nil, fun x => by simp [new]⟩

/-- `addNode` keeps the copies in step, whatever positions its virtual nodes hit. -/
theorem InStep.addNode {h : ConsistentHash} (hs : h.InStep) (node : String) :
    (h.addNode node).InStep where
  sorted := pairwise_sortedHashes_addNode h node
  mem_iff x := by
    rw [mem_sortedHashes_addNode, ← AList.lookup_isSome, lookup_circle_addNode, hs.mem_iff,
      ← AList.lookup_isSome]
    -- a position that the node takes is in both copies, any other one as before
    split
    · rename_i hx
      simp [hx]
    · rename_i hx
      simp [hx]

/-- `removeNode` keeps the order. -/
theorem sorted_removeNode {h : ConsistentHash} (hsorted : h.sortedHashes_.Pairwise (· ≤ ·))
    (node : String) : (h.removeNode node).sortedHashes_.Pairwise (· ≤ ·) := by
  rw [sortedHashes_removeNode]
  exact hsorted.sublist (List.diff_sublist _ _)

/-- `removeNode` computes every position at least as often as it occurs. -/
def RemovesAll (h : ConsistentHash) (node : String) : Prop :=
  ∀ x ∈ h.removalHashes node, h.sortedHashes_.count x ≤ (h.removalHashes node).count x

/-- **When `removeNode` leaves the copies in step**: exactly if it removes every occurrence of the
    positions it computes. -/
theorem removeNode_inStep_iff {h : ConsistentHash} (hs : h.InStep) (node : String) :
    (h.removeNode node).InStep ↔ h.RemovesAll node := by
  have hleft : ∀ x, x ∈ (h.removeNode node).sortedHashes_ ↔
      (h.removalHashes node).count x < h.sortedHashes_.count x := by
    intro x
    rw [sortedHashes_removeNode, ← List.count_pos_iff, List.count_diff, Nat.sub_pos_iff_lt]
  constructor
  · intro hstep x hx
    -- the position has no node any more, so it may not be listed
    have hnone : x ∉ (h.removeNode node).circle_ := by
      rw [← AList.lookup_isSome, lookup_circle_removeNode, if_pos hx]
      simp
    rw [← hstep.mem_iff, hleft] at hnone
    exact Nat.not_lt.mp hnone
  · intro hall
    refine ⟨sorted_removeNode hs.sorted node, fun x => ?_⟩
    rw [hleft, ← AList.lookup_isSome, lookup_circle_removeNode]
    by_cases hx : x ∈ h.removalHashes node
    · rw [if_pos hx]
      have hle := hall x hx
      simp only [Option.isSome_none, Bool.false_eq_true, iff_false, Nat.not_lt]
      exact hle
    · rw [if_neg hx, List.count_eq_zero_of_not_mem hx, List.count_pos_iff, hs.mem_iff,
        AList.lookup_isSome]

/-- `getNode` throws exactly on a ring without virtual nodes, and otherwise returns a position that
    `circle_` assigns to a node. -/
def Serves (h : ConsistentHash) : Prop :=
  (h.circle_.entries = [] →
    ∀ key, h.getNode key = .error (.runtimeError "No nodes in consistent hash")) ∧
  (h.circle_.entries ≠ [] →
    ∀ key, ∃ p node, h.getNode key = .ok p ∧ h.circle_.lookup p = some node)

/-- Copies in step are empty together. -/
theorem InStep.ne_nil_iff {h : ConsistentHash} (hs : h.InStep) :
    h.sortedHashes_ ≠ [] ↔ h.circle_.entries ≠ [] := by
  rw [not_iff_not]
  constructor
  · intro hnil
    refine List.eq_nil_iff_forall_not_mem.mpr fun e he => ?_
    have hmem : e.1 ∈ h.circle_ := AList.mem_keys.mpr (List.mem_map_of_mem he)
    rw [← hs.mem_iff, hnil] at hmem
    cases hmem
  · intro hnil
    refine List.eq_nil_iff_forall_not_mem.mpr fun x hx => ?_
    rw [hs.mem_iff, AList.mem_keys, AList.keys, hnil] at hx
    cases hx

/-- Copies in step serve every key. -/
theorem InStep.serves {h : ConsistentHash} (hs : h.InStep) : h.Serves := by
  constructor
  · intro hempty key
    simp [getNode, hempty]
  · intro hne key
    have hlist : h.sortedHashes_ ≠ [] := hs.ne_nil_iff.mpr hne
    obtain ⟨p, hp⟩ := exists_getNode hne hlist key
    have hmem : p ∈ h.sortedHashes_ := ((getNode_ok_iff hs.sorted hne key p).mp hp).1
    rw [hs.mem_iff, ← AList.lookup_isSome] at hmem
    obtain ⟨node, hnode⟩ := Option.isSome_iff_exists.mp hmem
    exact ⟨p, node, hp, hnode⟩

/-! ## §3 A new node -/

/-- What is selected among more positions is selected among fewer, if it is one of them. -/
theorem Selects.of_subset {ring ring' : Nat → Prop} {hash p : Nat} (h : Selects ring' hash p)
    (hsub : ∀ q, ring q → ring' q) (hp : ring p) : Selects ring hash p := by
  obtain ⟨-, ⟨hlt, hleast⟩ | ⟨hall, hleast⟩⟩ := h
  · exact ⟨hp, .inl ⟨hlt, fun q hq hlt' => hleast q (hsub q hq) hlt'⟩⟩
  · exact ⟨hp, .inr ⟨fun q hq => hall q (hsub q hq), fun q hq => hleast q (hsub q hq)⟩⟩

/-- A ring that `addNode` has built. -/
def build (numReplicas : Nat) (hashFunc : String → Nat) (nodes : List String) : ConsistentHash :=
  nodes.foldl addNode (new numReplicas hashFunc)

theorem InStep.foldl_addNode {h : ConsistentHash} (hs : h.InStep) (nodes : List String) :
    (nodes.foldl ConsistentHash.addNode h).InStep := by
  induction nodes generalizing h with
  | nil => exact hs
  | cons node nodes ih => exact ih (hs.addNode node)

theorem inStep_build (numReplicas : Nat) (hashFunc : String → Nat) (nodes : List String) :
    (build numReplicas hashFunc nodes).InStep :=
  (inStep_new numReplicas hashFunc).foldl_addNode nodes

/-- A node that joins a ring in step takes over keys, and moves none between the others. -/
theorem InStep.getNode_addNode {h : ConsistentHash} (hs : h.InStep) (hne : h.circle_.entries ≠ [])
    (node key : String) : ∃ p p' a b, h.getNode key = .ok p ∧
      (h.addNode node).getNode key = .ok p' ∧
      h.circle_.lookup p = some a ∧ (h.addNode node).circle_.lookup p' = some b ∧
      (p' = p ∨ ∃ i < h.numReplicas_, h.virtualHash node i = p') ∧ (b = a ∨ b = node) := by
  obtain ⟨p, a, hp, ha⟩ := hs.serves.2 hne key
  have hs' := hs.addNode node
  have hne' : (h.addNode node).circle_.entries ≠ [] := by
    rw [← hs'.ne_nil_iff]
    have hpos : p ∈ (h.addNode node).sortedHashes_ :=
      (mem_sortedHashes_addNode h node p).mpr (.inl ((getNode_ok_iff hs.sorted hne key p).mp hp).1)
    exact List.ne_nil_of_mem hpos
  obtain ⟨p', b, hp', hb⟩ := hs'.serves.2 hne' key
  refine ⟨p, p', a, b, hp, hp', ha, hb, ?_⟩
  have hlookup := lookup_circle_addNode h node p'
  by_cases hnew : ∃ i < h.numReplicas_, h.virtualHash node i = p'
  · -- `circle_` assigns the node's own positions to it
    rw [if_pos hnew, hb] at hlookup
    exact ⟨.inr hnew, .inr (Option.some.inj hlookup)⟩
  · -- the position is an old one, so the key had selected it before
    have hsel := (getNode_ok_iff hs.sorted hne key p).mp hp
    have hsel' := (getNode_ok_iff hs'.sorted hne' key p').mp hp'
    rw [(addNode_params h node).2] at hsel'
    have hold : p' ∈ h.sortedHashes_ :=
      ((mem_sortedHashes_addNode h node p').mp hsel'.1).resolve_right hnew
    have hsub : ∀ q, q ∈ h.sortedHashes_ → q ∈ (h.addNode node).sortedHashes_ :=
      fun q hq => (mem_sortedHashes_addNode h node q).mpr (.inl hq)
    have hpp : p' = p := (hsel'.of_subset hsub hold).unique hsel
    rw [if_neg hnew, hb, hpp, ha] at hlookup
    exact ⟨.inl hpp, .inl (Option.some.inj hlookup)⟩

theorem foldl_addNode_params (h : ConsistentHash) (nodes : List String) :
    (nodes.foldl addNode h).numReplicas_ = h.numReplicas_ ∧
    (nodes.foldl addNode h).hashFunction_ = h.hashFunction_ := by
  induction nodes generalizing h with
  | nil => exact ⟨rfl, rfl⟩
  | cons node nodes ih =>
    obtain ⟨hrep, hhash⟩ := ih (h.addNode node)
    exact ⟨hrep.trans (addNode_params h node).1, hhash.trans (addNode_params h node).2⟩

@[simp] theorem numReplicas_build (numReplicas : Nat) (hashFunc : String → Nat)
    (nodes : List String) : (build numReplicas hashFunc nodes).numReplicas_ = numReplicas :=
  (foldl_addNode_params _ nodes).1

@[simp] theorem hashFunction_build (numReplicas : Nat) (hashFunc : String → Nat)
    (nodes : List String) : (build numReplicas hashFunc nodes).hashFunction_ = hashFunc :=
  (foldl_addNode_params _ nodes).2

/-- **A new node moves no key between two old ones.** For every hash function, number of replicas
    and ring with positions built by `addNode`, every node and every key: after `addNode` the key
    keeps its position or gets one of the node's own, and the node that `circle_` assigns to it is
    the same as before or the new one. -/
theorem addNode_moves_only_to_new (numReplicas : Nat) (hashFunc : String → Nat)
    (nodes : List String) (node key : String)
    (hne : (build numReplicas hashFunc nodes).circle_.entries ≠ []) :
    ∃ p p' a b, (build numReplicas hashFunc nodes).getNode key = .ok p ∧
      ((build numReplicas hashFunc nodes).addNode node).getNode key = .ok p' ∧
      (build numReplicas hashFunc nodes).circle_.lookup p = some a ∧
      ((build numReplicas hashFunc nodes).addNode node).circle_.lookup p' = some b ∧
      (p' = p ∨ ∃ i < numReplicas, hashFunc (node ++ "_0" ++ toString i) = p') ∧
      (b = a ∨ b = node) := by
  have hmoves := (inStep_build numReplicas hashFunc nodes).getNode_addNode hne node key
  simpa [virtualHash] using hmoves

/-- A hash under which every name collides. -/
theorem addNode_moves_only_to_new_collision :
    (build 2 (fun _ => 7) ["a"]).circle_.entries ≠ [] ∧
    ∃ p p' a b, (build 2 (fun _ => 7) ["a"]).getNode "key" = .ok p ∧
      ((build 2 (fun _ => 7) ["a"]).addNode "b").getNode "key" = .ok p' ∧
      (build 2 (fun _ => 7) ["a"]).circle_.lookup p = some a ∧
      ((build 2 (fun _ => 7) ["a"]).addNode "b").circle_.lookup p' = some b ∧
      (p' = p ∨ ∃ i < 2, (fun _ => 7) ("b" ++ "_0" ++ toString i) = p') ∧ (b = a ∨ b = "b") := by
  have hne : (build 2 (fun _ => 7) ["a"]).circle_.entries ≠ [] := by decide
  exact ⟨hne, addNode_moves_only_to_new 2 (fun _ => 7) ["a"] "b" "key" hne⟩

/-! ## §4 Nodes coming and going -/

/-- A call that changes the ring. -/
inductive RingOp where
  | addNode (node : String)
  | removeNode (node : String)
  deriving DecidableEq, Repr

/-- One call. -/
def apply (h : ConsistentHash) : RingOp → ConsistentHash
  | .addNode node => h.addNode node
  | .removeNode node => h.removeNode node

/-- The ring after a sequence of calls. -/
def run (numReplicas : Nat) (hashFunc : String → Nat) (ops : List RingOp) : ConsistentHash :=
  ops.foldl apply (new numReplicas hashFunc)

/-- The call leaves copies in step that were in step. -/
def Keeps (h : ConsistentHash) : RingOp → Prop
  | .addNode _ => True
  | .removeNode node => h.RemovesAll node

theorem InStep.apply_iff {h : ConsistentHash} (hs : h.InStep) (op : RingOp) :
    (h.apply op).InStep ↔ h.Keeps op := by
  cases op with
  | addNode node => exact iff_of_true (hs.addNode node) trivial
  | removeNode node => exact removeNode_inStep_iff hs node

/-- **When the two copies stay in step.** For every hash function, number of replicas and sequence
    of calls: after every call `sortedHashes_` is sorted, has the positions of `circle_`, and
    `getNode` serves every key, exactly if every call of `removeNode` removes each of the positions
    it computes at least as often as it occurs. -/
theorem in_step_throughout_iff (numReplicas : Nat) (hashFunc : String → Nat) (ops : List RingOp) :
    (∀ pre, pre <+: ops → (run numReplicas hashFunc pre).InStep ∧
      (run numReplicas hashFunc pre).Serves) ↔
    ∀ pre node, pre ++ [.removeNode node] <+: ops →
      (run numReplicas hashFunc pre).RemovesAll node := by
  have hsnoc : ∀ pre op, run numReplicas hashFunc (pre ++ [op]) =
      (run numReplicas hashFunc pre).apply op := by
    intro pre op
    simp [run, List.foldl_append]
  constructor
  · -- the copies are in step before and after the call
    intro hall pre node hpre
    have hbefore := (hall pre ((List.prefix_append _ _).trans hpre)).1
    have hafter := (hall _ hpre).1
    rw [hsnoc] at hafter
    exact (removeNode_inStep_iff hbefore node).mp hafter
  · intro hkeeps pre
    -- the run is extended by one call at a time
    induction pre using List.reverseRecOn with
    | nil => exact fun _ => ⟨inStep_new _ _, (inStep_new _ _).serves⟩
    | append_singleton pre op ih =>
      intro hpre
      have hbefore := (ih ((List.prefix_append _ _).trans hpre)).1
      have hafter : ((run numReplicas hashFunc pre).apply op).InStep := by
        rw [hbefore.apply_iff]
        cases op with
        | addNode node => exact trivial
        | removeNode node => exact hkeeps pre node hpre
      rw [hsnoc]
      exact ⟨hafter, hafter.serves⟩

/-- `addNode("a")` twice, with one replica, and a removal that names the same virtual node. -/
def doubleAdd : List RingOp := [.addNode "a", .addNode "a", .removeNode "a_0"]

theorem doubleAdd_out_of_step :
    ¬∀ x, x ∈ (run 1 String.length doubleAdd).sortedHashes_ ↔
      x ∈ (run 1 String.length doubleAdd).circle_ := by
  intro h
  have hlisted : 4 ∈ (run 1 String.length doubleAdd).sortedHashes_ := by decide
  have hnode : 4 ∉ (run 1 String.length doubleAdd).circle_ := by decide
  exact hnode ((h 4).mp hlisted)

end ConsistentHash

end RainWebServer.Util
