import Mathlib.Data.List.AList
import Mathlib.Data.List.Sort

/-!
# ConsistentHash: the Hash Ring

Embeds `include/util/ConsistenHash.h`. The ring is kept twice: `circle_` maps a position to
the node that owns it, and `sortedHashes_` lists the positions in increasing order.

`getNode` returns a position of the ring, the first one greater than the key's hash or the
least one of all; `getNode_ok_iff` characterises it without the binary search.
-/

namespace RainWebServer.Util

/-! ## §1 The ring -/

/-- The members of `ConsistentHash`; the hash function is a parameter of the program. -/
structure ConsistentHash where
  numReplicas_ : Nat
  hashFunction_ : String → Nat
  circle_ : AList (fun _ : Nat => String)
  sortedHashes_ : List Nat

/-- The ways in which a lookup ends without a position. -/
inductive RingError where
  /-- The `std::runtime_error` thrown on an empty ring. -/
  | runtimeError (what : String)
  /-- `*it` for an iterator past the end of `sortedHashes_`. -/
  | pastTheEnd
  deriving DecidableEq, Repr

namespace ConsistentHash

/-- The constructor. -/
def new (numReplicas : Nat) (hashFunc : String → Nat) : ConsistentHash :=
  ⟨numReplicas, hashFunc, ∅, []⟩

/-- The position of the `i`-th virtual node that `addNode` makes for `node`. -/
def virtualHash (h : ConsistentHash) (node : String) (i : Nat) : Nat :=
  h.hashFunction_ (node ++ "_0" ++ toString i)

/-- One iteration of the loop of `addNode`. -/
def addVirtualNode (node : String) (h : ConsistentHash) (i : Nat) : ConsistentHash :=
  { h with
    circle_ := h.circle_.insert (h.virtualHash node i) node
    sortedHashes_ := h.sortedHashes_ ++ [h.virtualHash node i] }

/-- `addNode`: the virtual nodes, then `std::sort`. -/
def addNode (h : ConsistentHash) (node : String) : ConsistentHash :=
  let h := (List.range h.numReplicas_).foldl (addVirtualNode node) h
  { h with sortedHashes_ := h.sortedHashes_.insertionSort (· ≤ ·) }

/-- `std::upper_bound` on a sorted vector: the first element greater than `hash`. -/
def upperBound (hashes : List Nat) (hash : Nat) : Option Nat :=
  hashes.find? (fun x => hash < x)

/-- `getNode`. -/
def getNode (h : ConsistentHash) (key : String) : Except RingError Nat :=
  if h.circle_.entries.isEmpty then .error (.runtimeError "No nodes in consistent hash")
  else
    match upperBound h.sortedHashes_ (h.hashFunction_ key) with
    | some position => .ok position
    | none =>
      match h.sortedHashes_.head? with
      | some position => .ok position
      | none => .error .pastTheEnd

/-! ## §2 What `addNode` adds -/

/-- The loop of `addNode` over the first `n` replicas. -/
theorem foldl_addVirtualNode (h : ConsistentHash) (node : String) (n : Nat) :
    ((List.range n).foldl (addVirtualNode node) h).numReplicas_ = h.numReplicas_ ∧
    ((List.range n).foldl (addVirtualNode node) h).hashFunction_ = h.hashFunction_ ∧
    (∀ x, x ∈ ((List.range n).foldl (addVirtualNode node) h).sortedHashes_ ↔
      x ∈ h.sortedHashes_ ∨ ∃ i < n, h.virtualHash node i = x) ∧
    ∀ x, ((List.range n).foldl (addVirtualNode node) h).circle_.lookup x =
      if ∃ i < n, h.virtualHash node i = x then some node else h.circle_.lookup x := by
  induction n with
  | zero => simp
  | succ n ih =>
    -- one more replica, added to the ring `g` the earlier ones have built
    rw [List.range_succ, List.foldl_append]
    generalize (List.range n).foldl (addVirtualNode node) h = g at ih ⊢
    obtain ⟨hrep, hhash, hmem, hlook⟩ := ih
    have hpos : g.virtualHash node n = h.virtualHash node n := by simp [virtualHash, hhash]
    refine ⟨hrep, hhash, fun x => ?_, fun x => ?_⟩
    · simp only [List.foldl_cons, List.foldl_nil, addVirtualNode, List.mem_append, hmem, hpos,
        List.mem_singleton]
      constructor
      · rintro ((hx | ⟨i, hi, hx⟩) | rfl)
        · exact .inl hx
        · exact .inr ⟨i, Nat.lt_succ_of_lt hi, hx⟩
        · exact .inr ⟨n, Nat.lt_succ_self n, rfl⟩
      · rintro (hx | ⟨i, hi, hx⟩)
        · exact .inl (.inl hx)
        · rcases Nat.lt_succ_iff_lt_or_eq.mp hi with hlt | rfl
          · exact .inl (.inr ⟨i, hlt, hx⟩)
          · exact .inr hx.symm
    · simp only [List.foldl_cons, List.foldl_nil, addVirtualNode, hpos]
      by_cases hx : x = h.virtualHash node n
      · -- a position that is hit again is overwritten, by the same node
        subst hx
        rw [AList.lookup_insert, if_pos ⟨n, Nat.lt_succ_self n, rfl⟩]
      · rw [AList.lookup_insert_ne hx, hlook]
        have hiff : (∃ i < n, h.virtualHash node i = x) ↔
            ∃ i < n + 1, h.virtualHash node i = x := by
          constructor
          · rintro ⟨i, hi, hix⟩
            exact ⟨i, Nat.lt_succ_of_lt hi, hix⟩
          · rintro ⟨i, hi, hix⟩
            refine ⟨i, ?_, hix⟩
            rcases Nat.lt_succ_iff_lt_or_eq.mp hi with hlt | rfl
            · exact hlt
            · exact absurd hix.symm hx
        simp only [hiff]

/-- `addNode` leaves the parameters of the ring alone. -/
theorem addNode_params (h : ConsistentHash) (node : String) :
    (h.addNode node).numReplicas_ = h.numReplicas_ ∧
    (h.addNode node).hashFunction_ = h.hashFunction_ :=
  ⟨(foldl_addVirtualNode h node _).1, (foldl_addVirtualNode h node _).2.1⟩

/-- The positions after `addNode` are the old ones and the node's virtual nodes. -/
theorem mem_sortedHashes_addNode (h : ConsistentHash) (node : String) (x : Nat) :
    x ∈ (h.addNode node).sortedHashes_ ↔
      x ∈ h.sortedHashes_ ∨ ∃ i < h.numReplicas_, h.virtualHash node i = x := by
  simp only [addNode, List.mem_insertionSort]
  exact (foldl_addVirtualNode h node h.numReplicas_).2.2.1 x

/-- The node takes over every position that one of its virtual nodes has. -/
theorem lookup_circle_addNode (h : ConsistentHash) (node : String) (x : Nat) :
    (h.addNode node).circle_.lookup x =
      if ∃ i < h.numReplicas_, h.virtualHash node i = x then some node
      else h.circle_.lookup x :=
  (foldl_addVirtualNode h node h.numReplicas_).2.2.2 x

theorem pairwise_sortedHashes_addNode (h : ConsistentHash) (node : String) :
    (h.addNode node).sortedHashes_.Pairwise (· ≤ ·) :=
  List.pairwise_insertionSort (· ≤ ·) _

/-! ## §3 The position that a key selects -/

/-- `p` is the position that a key with hash `hash` selects on a ring with positions `ring`:
    the least one greater than `hash`, or the least of all if none is greater. -/
def Selects (ring : Nat → Prop) (hash p : Nat) : Prop :=
  ring p ∧ ((hash < p ∧ ∀ q, ring q → hash < q → p ≤ q) ∨
    ((∀ q, ring q → q ≤ hash) ∧ ∀ q, ring q → p ≤ q))

/-- At most one position is selected. -/
theorem Selects.unique {ring : Nat → Prop} {hash p q : Nat} (hp : Selects ring hash p)
    (hq : Selects ring hash q) : p = q := by
  obtain ⟨hpr, ⟨hlt, hleast⟩ | ⟨hall, hleast⟩⟩ := hp <;>
    obtain ⟨hqr, ⟨hlt', hleast'⟩ | ⟨hall', hleast'⟩⟩ := hq
  · exact Nat.le_antisymm (hleast q hqr hlt') (hleast' p hpr hlt)
  · exact absurd (hall' p hpr) (Nat.not_le_of_lt hlt)
  · exact absurd (hall q hqr) (Nat.not_le_of_lt hlt')
  · exact Nat.le_antisymm (hleast q hqr) (hleast' p hpr)

/-- A lookup on a ring with positions ends with one. -/
theorem exists_getNode {h : ConsistentHash} (hcircle : h.circle_.entries ≠ [])
    (hlist : h.sortedHashes_ ≠ []) (key : String) : ∃ p, h.getNode key = .ok p := by
  rw [getNode, if_neg (by simpa using hcircle)]
  cases hub : upperBound h.sortedHashes_ (h.hashFunction_ key) with
  | some position => exact ⟨position, rfl⟩
  | none =>
    obtain ⟨first, rest, hlist⟩ := List.exists_cons_of_ne_nil hlist
    exact ⟨first, by simp [hlist]⟩

/-- On a sorted ring `getNode` returns the position that the key selects. -/
theorem getNode_ok_iff {h : ConsistentHash} (hsorted : h.sortedHashes_.Pairwise (· ≤ ·))
    (hcircle : h.circle_.entries ≠ []) (key : String) (p : Nat) :
    h.getNode key = .ok p ↔ Selects (· ∈ h.sortedHashes_) (h.hashFunction_ key) p := by
  have hsound : ∀ p, h.getNode key = .ok p →
      Selects (· ∈ h.sortedHashes_) (h.hashFunction_ key) p := by
    intro p hp
    rw [getNode, if_neg (by simpa using hcircle)] at hp
    cases hub : upperBound h.sortedHashes_ (h.hashFunction_ key) with
    | some position =>
      simp only [hub, Except.ok.injEq] at hp
      subst hp
      obtain ⟨hlt, before, after, hsplit, hbefore⟩ := List.find?_eq_some_iff_append.mp hub
      have hmem : position ∈ h.sortedHashes_ := by simp [hsplit]
      refine ⟨hmem, .inl ⟨by simpa using hlt, fun q hq hhq => ?_⟩⟩
      rw [hsplit, List.mem_append, List.mem_cons] at hq
      rcases hq with hq | rfl | hq
      · have := hbefore q hq
        simp at this
        omega
      · exact Nat.le_refl _
      · rw [hsplit] at hsorted
        exact (List.pairwise_cons.mp (List.pairwise_append.mp hsorted).2.1).1 q hq
    | none =>
      have hall : ∀ q ∈ h.sortedHashes_, q ≤ h.hashFunction_ key := by
        intro q hq
        simpa using List.find?_eq_none.mp hub q hq
      simp only [hub] at hp
      cases hlist : h.sortedHashes_ with
      | nil =>
        rw [hlist] at hp
        cases hp
      | cons first rest =>
        simp only [hlist, List.head?_cons, Except.ok.injEq] at hp
        subst hp
        rw [hlist] at hall hsorted
        refine ⟨List.mem_cons_self .., .inr ⟨hall, fun q hq => ?_⟩⟩
        rcases List.mem_cons.mp hq with rfl | hq
        · exact Nat.le_refl _
        · exact (List.pairwise_cons.mp hsorted).1 q hq
  refine ⟨hsound p, fun hsel => ?_⟩
  -- the ring is not empty, so the lookup ends with some position
  obtain ⟨q, hq⟩ := exists_getNode hcircle (List.ne_nil_of_mem hsel.1) key
  rw [hq, (hsound q hq).unique hsel]

end ConsistentHash

end RainWebServer.Util
