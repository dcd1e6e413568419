import RainWebServer.Util.ConsistentHashRemove

/-!
# ConsistentHash: The Order of the Nodes

Several users of `include/util/ConsistenHash.h` that learn of the same nodes in different orders
build different rings: `addNode` overwrites in `circle_` whatever a virtual node of the new node
hits, and it sorts `sortedHashes_`. The positions come out the same in every order. The nodes that
`circle_` assigns to them do so exactly as long as no two nodes have a position in common.

## Main result

`same_nodes_same_ring` : what of a ring is independent of the order of its `addNode` calls
-/

namespace RainWebServer.Util

namespace ConsistentHash

/-! ## §1 Rings with the same positions -/

/-- A lookup reads nothing of a ring in step but its positions. -/
theorem getNode_congr {h h' : ConsistentHash} (hs : h.InStep) (hs' : h'.InStep)
    (hhash : h'.hashFunction_ = h.hashFunction_)
    (hmem : ∀ x, x ∈ h'.sortedHashes_ ↔ x ∈ h.sortedHashes_) (key : String) :
    h'.getNode key = h.getNode key := by
  by_cases hempty : h.circle_.entries = []
  · -- both are empty, and both lookups throw
    have hempty' : h'.circle_.entries = [] := by
      by_contra hne
      obtain ⟨x, hx⟩ := List.exists_mem_of_ne_nil _ (hs'.ne_nil_iff.mpr hne)
      exact hs.ne_nil_iff.mp (List.ne_nil_of_mem ((hmem x).mp hx)) hempty
    rw [hs.serves.1 hempty, hs'.serves.1 hempty']
  · obtain ⟨p, node, hp, -⟩ := hs.serves.2 hempty key
    have hsel := (getNode_ok_iff hs.sorted hempty key p).mp hp
    have hempty' : h'.circle_.entries ≠ [] :=
      hs'.ne_nil_iff.mp (List.ne_nil_of_mem ((hmem p).mpr hsel.1))
    rw [hp, getNode_ok_iff hs'.sorted hempty', hhash]
    simpa only [Selects, hmem] using hsel

/-- The node that a key is assigned to: what `circle_` has for the position returned. -/
def owner (h : ConsistentHash) (key : String) : Option String :=
  match h.getNode key with
  | .ok position => h.circle_.lookup position
  | .error _ => none

theorem owner_of_ok {h : ConsistentHash} {key : String} {p : Nat} (hp : h.getNode key = .ok p) :
    h.owner key = h.circle_.lookup p := by
  rw [owner, hp]

/-! ## §2 Nodes in any order -/

section

variable {numReplicas : Nat} {hashFunc : String → Nat} {nodes nodes' : List String}

/-- No two of the nodes have a position in common. -/
def Apart (numReplicas : Nat) (hashFunc : String → Nat) (nodes : List String) : Prop :=
  ∀ n ∈ nodes, ∀ n' ∈ nodes, ∀ i < numReplicas, ∀ j < numReplicas,
    hashFunc (n ++ "_0" ++ toString i) = hashFunc (n' ++ "_0" ++ toString j) → n = n'

theorem Apart.of_same (hapart : Apart numReplicas hashFunc nodes)
    (hsame : ∀ n, n ∈ nodes' ↔ n ∈ nodes) : Apart numReplicas hashFunc nodes' :=
  fun n hn n' hn' => hapart n ((hsame n).mp hn) n' ((hsame n').mp hn')

/-- The same nodes have the same positions. -/
theorem mem_sortedHashes_of_same (hsame : ∀ n, n ∈ nodes' ↔ n ∈ nodes) (x : Nat) :
    x ∈ (build numReplicas hashFunc nodes').sortedHashes_ ↔
      x ∈ (build numReplicas hashFunc nodes).sortedHashes_ := by
  simp only [mem_sortedHashes_build, hsame]

theorem getNode_of_same (hsame : ∀ n, n ∈ nodes' ↔ n ∈ nodes) (key : String) :
    (build numReplicas hashFunc nodes').getNode key =
      (build numReplicas hashFunc nodes).getNode key :=
  getNode_congr (inStep_build ..) (inStep_build ..)
    ((hashFunction_build ..).trans (hashFunction_build ..).symm)
    (mem_sortedHashes_of_same hsame) key

/-- Nodes apart have the same owners in every order. -/
theorem owner_of_same (hapart : Apart numReplicas hashFunc nodes)
    (hsame : ∀ n, n ∈ nodes' ↔ n ∈ nodes) (key : String) :
    (build numReplicas hashFunc nodes').owner key =
      (build numReplicas hashFunc nodes).owner key := by
  have hget : (build numReplicas hashFunc nodes').getNode key =
      (build numReplicas hashFunc nodes).getNode key := getNode_of_same hsame key
  cases hp : (build numReplicas hashFunc nodes).getNode key with
  | error e => rw [owner, owner, hget, hp]
  | ok p =>
    rw [owner_of_ok hp, owner_of_ok (hget.trans hp)]
    -- the position is a virtual node's, and each ring assigns it to that node
    obtain ⟨n, hn, i, hi, rfl⟩ :=
      (mem_sortedHashes_build ..).mp (mem_of_getNode (inStep_build ..) hp)
    rw [lookup_circle_build hapart hn hi,
      lookup_circle_build (hapart.of_same hsame) ((hsame n).mpr hn) hi]

/-- A node that is added last owns all its positions. -/
theorem lookup_circle_last {n : String} {i : Nat} (hi : i < numReplicas) :
    (build numReplicas hashFunc (nodes ++ [n])).circle_.lookup
      (hashFunc (n ++ "_0" ++ toString i)) = some n := by
  have hsnoc : build numReplicas hashFunc (nodes ++ [n]) =
      (build numReplicas hashFunc nodes).addNode n := by simp [build, List.foldl_append]
  rw [hsnoc, lookup_circle_addNode]
  simp only [virtualHash, numReplicas_build, hashFunction_build]
  exact if_pos ⟨i, hi, rfl⟩

/-- Every position of a ring is returned for some key. -/
theorem exists_key {x : Nat} (hx : x ∈ (build numReplicas hashFunc nodes).sortedHashes_) :
    ∃ key, (build numReplicas hashFunc nodes).getNode key = .ok x := by
  have hs := inStep_build numReplicas hashFunc nodes
  -- the position before it is a virtual node's, and its name is the key
  obtain ⟨q, hq, hsel⟩ := selects_surjective hx
  obtain ⟨n, -, j, -, rfl⟩ := (mem_sortedHashes_build ..).mp hq
  have hne := hs.ne_nil_iff.mp (List.ne_nil_of_mem hx)
  refine ⟨n ++ "_0" ++ toString j, (getNode_ok_iff hs.sorted hne _ _).mpr ?_⟩
  rw [hashFunction_build]
  exact hsel

/-- If every order gives every key the same owner, then the nodes are apart. -/
theorem apart_of_owner
    (howner : ∀ nodes', nodes'.Perm nodes → ∀ key,
      (build numReplicas hashFunc nodes').owner key =
        (build numReplicas hashFunc nodes).owner key) : Apart numReplicas hashFunc nodes := by
  intro n hn n' hn' i hi j hj heq
  have hlast : ∀ m ∈ nodes, (nodes.erase m ++ [m]).Perm nodes := fun m hm =>
    (List.perm_append_singleton m _).trans (List.perm_cons_erase hm).symm
  -- some key gets the position in question, whatever the order
  obtain ⟨key, hkey⟩ : ∃ key, (build numReplicas hashFunc nodes).getNode key =
      .ok (hashFunc (n ++ "_0" ++ toString i)) :=
    exists_key ((mem_sortedHashes_build ..).mpr ⟨n, hn, i, hi, rfl⟩)
  have howns : ∀ m ∈ nodes, ∀ k < numReplicas,
      hashFunc (m ++ "_0" ++ toString k) = hashFunc (n ++ "_0" ++ toString i) →
      (build numReplicas hashFunc nodes).owner key = some m := by
    intro m hm k hk hpos
    have hget : (build numReplicas hashFunc (nodes.erase m ++ [m])).getNode key =
        (build numReplicas hashFunc nodes).getNode key :=
      getNode_of_same (fun a => (hlast m hm).mem_iff) key
    rw [← howner _ (hlast m hm), owner_of_ok (hget.trans hkey), ← hpos]
    exact lookup_circle_last hk
  exact Option.some.inj ((howns n hn i hi rfl).symm.trans (howns n' hn' j hj heq.symm))

/-- **What the order of the nodes decides.** For every hash function, number of replicas and list of
    nodes: every ring built from the same nodes, in any order and with any repetitions, returns the
    same position for every key, or throws for the same keys. If no two of the nodes have a position
    in common it also assigns every key to the same node, and only then do all orders of the list
    agree on that. -/
theorem same_nodes_same_ring (numReplicas : Nat) (hashFunc : String → Nat) (nodes : List String) :
    (∀ nodes', (∀ n, n ∈ nodes' ↔ n ∈ nodes) → ∀ key,
      (build numReplicas hashFunc nodes').getNode key =
        (build numReplicas hashFunc nodes).getNode key) ∧
    (Apart numReplicas hashFunc nodes → ∀ nodes', (∀ n, n ∈ nodes' ↔ n ∈ nodes) → ∀ key,
      (build numReplicas hashFunc nodes').owner key =
        (build numReplicas hashFunc nodes).owner key) ∧
    ((∀ nodes', nodes'.Perm nodes → ∀ key,
      (build numReplicas hashFunc nodes').owner key =
        (build numReplicas hashFunc nodes).owner key) → Apart numReplicas hashFunc nodes) :=
  ⟨fun _ hsame => getNode_of_same hsame, fun hapart _ hsame => owner_of_same hapart hsame,
    apart_of_owner⟩

end

/-- Two nodes on one position: the one added last owns it. -/
example : (build 1 (fun _ => 7) ["a", "b"]).owner "key" = some "b" ∧
    (build 1 (fun _ => 7) ["b", "a"]).owner "key" = some "a" := by decide

end ConsistentHash

end RainWebServer.Util
