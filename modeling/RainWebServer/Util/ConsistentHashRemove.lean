import Mathlib.Data.Set.Function
import Mathlib.Data.Finset.Max
import RainWebServer.Util.ConsistentHashRuns

/-!
# ConsistentHash: What `removeNode` Removes

In `include/util/ConsistenHash.h`, `addNode` hashes the names `node + "_0" + i` and `removeNode` the
names `node + i`. The two never coincide for one node (`removalName_ne`), so that under a hash
without collisions `removeNode` leaves every virtual node of the node it is called for.

## Main results

- `selects_surjective` : every position of a ring is selected by some position as the hash of a key
- `removeNode_leaves_its_node` : after `removeNode` the node has all its positions, some key is
  still assigned to it, and neither is the ring the one without the node
-/

namespace RainWebServer.Util

namespace ConsistentHash

/-! ## §1 Names -/

/-- A list is cut in one way before its last separator. -/
theorem append_cons_inj_last {α : Type} {sep : α} {l₁ l₂ d₁ d₂ : List α} (h₁ : sep ∉ d₁)
    (h₂ : sep ∉ d₂) (h : l₁ ++ sep :: d₁ = l₂ ++ sep :: d₂) : l₁ = l₂ ∧ d₁ = d₂ := by
  -- either part that the longer head has more would hold a separator
  rcases List.append_eq_append_iff.mp h with ⟨c, hl, hd⟩ | ⟨c, hl, hd⟩
  · cases c with
    | nil =>
      rw [List.append_nil] at hl
      exact ⟨hl.symm, (List.cons.inj hd).2⟩
    | cons a c =>
      -- the second separator would be in `d₁`
      have hmem : sep ∈ d₁ := by
        rw [(List.cons.inj hd).2]
        simp
      exact absurd hmem h₁
  · cases c with
    | nil =>
      rw [List.append_nil] at hl
      exact ⟨hl, (List.cons.inj hd).2.symm⟩
    | cons a c =>
      have hmem : sep ∈ d₂ := by
        rw [(List.cons.inj hd).2]
        simp
      exact absurd hmem h₂

/-- The name of a virtual node determines the node and the index. -/
theorem virtualName_inj {n m : String} {i j : Nat}
    (h : n ++ "_0" ++ toString i = m ++ "_0" ++ toString j) : n = m ∧ i = j := by
  have hlist := congrArg String.toList h
  simp only [Nat.toString_eq_repr, String.toList_append, Nat.toList_repr, String.reduceToList,
    List.append_assoc, List.cons_append, List.nil_append] at hlist
  have hdigits : ∀ k, '_' ∉ '0' :: Nat.toDigits 10 k := by
    intro k hk
    rcases List.mem_cons.mp hk with hk | hk
    · exact absurd hk (by decide)
    · exact Nat.underscore_not_in_toDigits hk
  obtain ⟨hnode, hindex⟩ := append_cons_inj_last (hdigits i) (hdigits j) hlist
  have hdigits' : Nat.toDigits 10 i = Nat.toDigits 10 j := (List.cons.inj hindex).2
  refine ⟨String.toList_inj.mp hnode, ?_⟩
  rw [← Nat.ofDigitChars_ten_toDigits (n := i), hdigits', Nat.ofDigitChars_ten_toDigits]

/-- `removeNode` never names a virtual node that `addNode` makes for the same node. -/
theorem removalName_ne (node : String) (i j : Nat) :
    node ++ toString i ≠ node ++ "_0" ++ toString j := by
  intro h
  have hlist := congrArg String.toList h
  simp only [Nat.toString_eq_repr, String.toList_append, Nat.toList_repr, List.append_assoc,
    List.append_cancel_left_eq] at hlist
  have hmem : '_' ∈ Nat.toDigits 10 i := by
    rw [hlist]
    simp
  exact Nat.underscore_not_in_toDigits hmem

/-! ## §2 Every position is selected -/

/-- On a ring of finitely many positions every position is selected by one of them, taken as the
    hash of a key: by the one before it. -/
theorem selects_surjective {ring : List Nat} {p : Nat} (hp : p ∈ ring) :
    ∃ q ∈ ring, Selects (· ∈ ring) q p := by
  by_cases hleast : ∃ q ∈ ring, q < p
  · obtain ⟨q₀, hq₀, hlt₀⟩ := hleast
    -- the greatest position below
    obtain ⟨q, hq, hmax⟩ := (ring.toFinset.filter (· < p)).exists_max_image id
      ⟨q₀, by simp [hq₀, hlt₀]⟩
    simp only [Finset.mem_filter, List.mem_toFinset, id] at hq hmax
    refine ⟨q, hq.1, hp, .inl ⟨hq.2, fun x hx hqx => ?_⟩⟩
    by_contra hxp
    have hle := hmax x ⟨hx, Nat.lt_of_not_le hxp⟩
    omega
  · obtain ⟨q, hq, hmax⟩ := ring.toFinset.exists_max_image id ⟨p, by simp [hp]⟩
    simp only [List.mem_toFinset, id] at hq hmax
    refine ⟨q, hq, hp, .inr ⟨hmax, fun x hx => ?_⟩⟩
    by_contra hxp
    exact hleast ⟨x, hx, Nat.lt_of_not_le hxp⟩

/-- A position that `getNode` returns is one of the ring. -/
theorem mem_of_getNode {h : ConsistentHash} (hs : h.InStep) {key : String} {p : Nat}
    (hget : h.getNode key = .ok p) : p ∈ h.sortedHashes_ := by
  by_cases hne : h.circle_.entries = []
  · rw [hs.serves.1 hne key] at hget
    cases hget
  · exact ((getNode_ok_iff hs.sorted hne key p).mp hget).1

/-! ## §3 A ring without collisions -/

/-- The names that are hashed for the nodes, and for the removal of `m`. -/
def hashedNames (numReplicas : Nat) (nodes : List String) (m : String) : Set String :=
  { name | (∃ n ∈ nodes, ∃ i < numReplicas, name = n ++ "_0" ++ toString i) ∨
    ∃ i < numReplicas, name = m ++ toString i }

/-- The positions of a ring are those of its nodes' virtual nodes. -/
theorem mem_sortedHashes_build (numReplicas : Nat) (hashFunc : String → Nat) (nodes : List String)
    (x : Nat) : x ∈ (build numReplicas hashFunc nodes).sortedHashes_ ↔
      ∃ n ∈ nodes, ∃ i < numReplicas, hashFunc (n ++ "_0" ++ toString i) = x := by
  induction nodes using List.reverseRecOn with
  | nil => simp [build, new]
  | append_singleton nodes node ih =>
    have hsnoc : build numReplicas hashFunc (nodes ++ [node]) =
        (build numReplicas hashFunc nodes).addNode node := by simp [build, List.foldl_append]
    rw [hsnoc, mem_sortedHashes_addNode, ih]
    simp only [virtualHash, numReplicas_build, hashFunction_build, List.mem_append,
      List.mem_singleton]
    constructor
    · rintro (⟨n, hn, hx⟩ | hx)
      · exact ⟨n, .inl hn, hx⟩
      · exact ⟨node, .inr rfl, hx⟩
    · rintro ⟨n, hn | rfl, hx⟩
      · exact .inl ⟨n, hn, hx⟩
      · exact .inr hx

/-- Without collisions every node has all its positions in `circle_`. -/
theorem lookup_circle_build {numReplicas : Nat} {hashFunc : String → Nat} {nodes : List String}
    (hinj : ∀ n ∈ nodes, ∀ n' ∈ nodes, ∀ i < numReplicas, ∀ j < numReplicas,
      hashFunc (n ++ "_0" ++ toString i) = hashFunc (n' ++ "_0" ++ toString j) → n = n')
    {n : String} (hn : n ∈ nodes) {i : Nat} (hi : i < numReplicas) :
    (build numReplicas hashFunc nodes).circle_.lookup (hashFunc (n ++ "_0" ++ toString i)) =
      some n := by
  induction nodes using List.reverseRecOn with
  | nil => cases hn
  | append_singleton nodes node ih =>
    have hsnoc : build numReplicas hashFunc (nodes ++ [node]) =
        (build numReplicas hashFunc nodes).addNode node := by simp [build, List.foldl_append]
    rw [hsnoc, lookup_circle_addNode]
    simp only [virtualHash, numReplicas_build, hashFunction_build]
    split
    · rename_i hnew
      obtain ⟨j, hj, hx⟩ := hnew
      rw [hinj node (by simp) n hn j hj i hi hx]
    · rename_i hold
      refine ih (fun n hn n' hn' => hinj n (by simp [hn]) n' (by simp [hn'])) ?_
      -- the node that was added last would have this position
      rcases List.mem_append.mp hn with hn | hn
      · exact hn
      · rw [List.mem_singleton.mp hn] at hold
        exact absurd ⟨i, hi, rfl⟩ hold

/-- A position that `removeNode` does not compute stays. -/
theorem removeNode_keeps {h : ConsistentHash} {node : String} {x : Nat}
    (hx : x ∉ h.removalHashes node) :
    (x ∈ (h.removeNode node).sortedHashes_ ↔ x ∈ h.sortedHashes_) ∧
    (h.removeNode node).circle_.lookup x = h.circle_.lookup x := by
  constructor
  · rw [sortedHashes_removeNode, ← List.count_pos_iff, List.count_diff,
      List.count_eq_zero_of_not_mem hx, Nat.sub_zero, List.count_pos_iff]
  · rw [lookup_circle_removeNode, if_neg hx]

/-! ## §4 `removeNode` and its own node -/

section

variable {numReplicas : Nat} {hashFunc : String → Nat} {nodes : List String} {m : String}

/-- Without collisions the positions that `removeNode` computes are none of the node's own. -/
theorem virtualHash_not_removed {h : ConsistentHash} (hhash : h.hashFunction_ = hashFunc)
    (hrep : h.numReplicas_ = numReplicas) (hm : m ∈ nodes)
    (hinj : Set.InjOn hashFunc (hashedNames numReplicas nodes m)) {i : Nat} (hi : i < numReplicas) :
    hashFunc (m ++ "_0" ++ toString i) ∉ h.removalHashes m := by
  intro hmem
  rw [removalHashes, hhash, hrep] at hmem
  obtain ⟨j, hj, heq⟩ := List.mem_map.mp hmem
  have hname := hinj (.inr ⟨j, List.mem_range.mp hj, rfl⟩) (.inl ⟨m, hm, i, hi, rfl⟩) heq
  exact removalName_ne m j i hname

/-- After `removeNode` the node has all its virtual nodes, in both copies of the ring. -/
theorem virtualHash_after_removeNode (hm : m ∈ nodes)
    (hinj : Set.InjOn hashFunc (hashedNames numReplicas nodes m)) {i : Nat} (hi : i < numReplicas) :
    hashFunc (m ++ "_0" ++ toString i) ∈
      ((build numReplicas hashFunc nodes).removeNode m).sortedHashes_ ∧
    ((build numReplicas hashFunc nodes).removeNode m).circle_.lookup
      (hashFunc (m ++ "_0" ++ toString i)) = some m := by
  obtain ⟨hlist, hlookup⟩ := removeNode_keeps (virtualHash_not_removed
    (h := build numReplicas hashFunc nodes) (hashFunction_build ..) (numReplicas_build ..)
    hm hinj hi)
  rw [hlist, hlookup]
  refine ⟨(mem_sortedHashes_build ..).mpr ⟨m, hm, i, hi, rfl⟩, lookup_circle_build ?_ hm hi⟩
  intro n hn n' hn' j hj k hk heq
  exact (virtualName_inj (hinj (.inl ⟨n, hn, j, hj, rfl⟩) (.inl ⟨n', hn', k, hk, rfl⟩) heq)).1

/-- Without collisions the node's positions are not those of a ring without the node. -/
theorem virtualHash_not_mem (hnodup : nodes.Nodup) (hm : m ∈ nodes)
    (hinj : Set.InjOn hashFunc (hashedNames numReplicas nodes m)) {i : Nat} (hi : i < numReplicas) :
    hashFunc (m ++ "_0" ++ toString i) ∉
      (build numReplicas hashFunc (nodes.erase m)).sortedHashes_ := by
  intro hmem
  obtain ⟨n, hn, j, hj, heq⟩ := (mem_sortedHashes_build ..).mp hmem
  have hname := hinj (.inl ⟨n, List.mem_of_mem_erase hn, j, hj, rfl⟩) (.inl ⟨m, hm, i, hi, rfl⟩) heq
  rw [(virtualName_inj hname).1] at hn
  exact hnodup.not_mem_erase hn

/-- Some key is assigned to the node after `removeNode`. -/
theorem exists_key_after_removeNode (hm : m ∈ nodes)
    (hinj : Set.InjOn hashFunc (hashedNames numReplicas nodes m)) {i : Nat} (hi : i < numReplicas) :
    ∃ key, ((build numReplicas hashFunc nodes).removeNode m).getNode key =
      .ok (hashFunc (m ++ "_0" ++ toString i)) := by
  obtain ⟨hlist, hlookup⟩ := virtualHash_after_removeNode hm hinj hi
  obtain ⟨q, hq, hsel⟩ := selects_surjective hlist
  -- the position before is a virtual node's too, and its name is the key
  have hq' : q ∈ (build numReplicas hashFunc nodes).sortedHashes_ := by
    rw [sortedHashes_removeNode] at hq
    exact List.diff_subset _ _ hq
  obtain ⟨n, -, j, -, rfl⟩ := (mem_sortedHashes_build ..).mp hq'
  have hne : ((build numReplicas hashFunc nodes).removeNode m).circle_.entries ≠ [] := by
    intro hnil
    rw [AList.lookup, hnil] at hlookup
    cases hlookup
  refine ⟨n ++ "_0" ++ toString j, (getNode_ok_iff ?_ hne _ _).mpr ?_⟩
  · exact sorted_removeNode (inStep_build numReplicas hashFunc nodes).sorted m
  · rw [(removeNode_params _ m).2, hashFunction_build]
    exact hsel

/-- **`removeNode` leaves the node it is called for.** For every number of replicas, nodes without
    repetition and node `m` of them, and every hash function without collisions on the names that
    are hashed: after `removeNode(m)` both copies of the ring have all virtual nodes of `m`; some
    key is assigned to `m`, and the ring built without `m` gives it another position or none; and
    `removeNode(m)` after `addNode(m)` does not restore the ring that was there before. -/
theorem removeNode_leaves_its_node (hr : 1 ≤ numReplicas) (hnodup : nodes.Nodup) (hm : m ∈ nodes)
    (hinj : Set.InjOn hashFunc (hashedNames numReplicas nodes m)) :
    (∀ i < numReplicas,
      hashFunc (m ++ "_0" ++ toString i) ∈
        ((build numReplicas hashFunc nodes).removeNode m).sortedHashes_ ∧
      ((build numReplicas hashFunc nodes).removeNode m).circle_.lookup
        (hashFunc (m ++ "_0" ++ toString i)) = some m) ∧
    (∃ key p, ((build numReplicas hashFunc nodes).removeNode m).getNode key = .ok p ∧
      ((build numReplicas hashFunc nodes).removeNode m).circle_.lookup p = some m ∧
      (build numReplicas hashFunc (nodes.erase m)).getNode key ≠ .ok p) ∧
    ((build numReplicas hashFunc (nodes.erase m)).addNode m).removeNode m ≠
      build numReplicas hashFunc (nodes.erase m) := by
  refine ⟨fun i hi => virtualHash_after_removeNode hm hinj hi, ?_, fun hrestored => ?_⟩
  · obtain ⟨key, hkey⟩ := exists_key_after_removeNode hm hinj hr
    refine ⟨key, _, hkey, (virtualHash_after_removeNode hm hinj hr).2, fun hget => ?_⟩
    exact virtualHash_not_mem hnodup hm hinj hr (mem_of_getNode (inStep_build ..) hget)
  · -- the first virtual node of `m` is left over
    have hnot := virtualHash_not_mem hnodup hm hinj hr
    have hparams := addNode_params (build numReplicas hashFunc (nodes.erase m)) m
    have hkept := (removeNode_keeps (virtualHash_not_removed
      (h := (build numReplicas hashFunc (nodes.erase m)).addNode m)
      (hparams.2.trans (hashFunction_build ..)) (hparams.1.trans (numReplicas_build ..))
      hm hinj hr)).1
    rw [hrestored, mem_sortedHashes_addNode] at hkept
    refine hnot (hkept.mpr (.inr ⟨0, ?_, ?_⟩))
    · rw [numReplicas_build]
      exact hr
    · rw [virtualHash, hashFunction_build]

end

/-- The characters as digits, none of them 0. -/
def charsCode : List Char → Nat
  | [] => 0
  | c :: cs => 2097152 * charsCode cs + (c.toNat + 1)

/-- A hash without any collision. -/
def textCode (s : String) : Nat := charsCode s.toList

theorem charsCode_injective : Function.Injective charsCode := by
  have hdigit : ∀ c : Char, c.toNat + 1 < 2097152 := by
    intro c
    rcases c.valid with hc | hc
    · have hlt : c.toNat < 0xd800 := hc
      omega
    · have hlt : c.toNat < 0x110000 := hc.2
      omega
  intro l₁
  induction l₁ with
  | nil =>
    intro l₂ h
    cases l₂ with
    | nil => rfl
    | cons c cs =>
      rw [charsCode, charsCode] at h
      omega
  | cons c₁ cs₁ ih =>
    intro l₂ h
    cases l₂ with
    | nil =>
      rw [charsCode, charsCode] at h
      omega
    | cons c₂ cs₂ =>
      rw [charsCode, charsCode] at h
      have h₁ := hdigit c₁
      have h₂ := hdigit c₂
      have hcode : charsCode cs₁ = charsCode cs₂ := by omega
      have hchar : c₁.toNat = c₂.toNat := by omega
      rw [ih hcode, Char.toNat_inj.mp hchar]

theorem textCode_injective : Function.Injective textCode :=
  charsCode_injective.comp fun _ _ h => String.toList_inj.mp h

theorem removeNode_leaves_its_node_a :
    Set.InjOn textCode (hashedNames 2 ["a", "b"] "a") ∧
    ∀ i < 2, textCode ("a" ++ "_0" ++ toString i) ∈
        ((build 2 textCode ["a", "b"]).removeNode "a").sortedHashes_ ∧
      ((build 2 textCode ["a", "b"]).removeNode "a").circle_.lookup
        (textCode ("a" ++ "_0" ++ toString i)) = some "a" := by
  have hinj : Set.InjOn textCode (hashedNames 2 ["a", "b"] "a") := textCode_injective.injOn
  exact ⟨hinj, (removeNode_leaves_its_node (by decide) (by decide) (by simp) hinj).1⟩

/-- A ring of the one node `"a"`: after `removeNode("a")` a key is still assigned to it, where the
    ring without it throws. -/
theorem removeNode_a_serves_a :
    Function.Injective textCode ∧
    ((build 1 textCode ["a"]).removeNode "a").getNode "key" = .ok (textCode "a_00") ∧
    ((build 1 textCode ["a"]).removeNode "a").circle_.lookup (textCode "a_00") = some "a" ∧
    (build 1 textCode []).getNode "key" = .error (.runtimeError "No nodes in consistent hash") ∧
    ((build 1 textCode []).addNode "a").removeNode "a" ≠ build 1 textCode [] := by
  refine ⟨textCode_injective, by rfl, by rfl, by rfl, fun h => ?_⟩
  have hlist := congrArg sortedHashes_ h
  revert hlist
  decide +kernel

end ConsistentHash

end RainWebServer.Util
