import RainWebServer.Util.LinkedLfu
import RainWebServer.Util.RainLfuLinks

/-!
# LinkedLfu: The Lists behind the Links

`RainLfu` has the lists of the cache as lists; `LinkedLfu` has nothing but links. `Realises` says
that the links of the one are the lists of the other: every list leads from its head to its tail and
back, it has sentinels of its own, and no node is in two of them.

## Main results

- `Realises.removeFromFreqList` : a node leaves the list of its frequency
- `Realises.addToFreqList` : a node that is in no list joins that of its frequency, which is made
  when it is missing
-/

namespace RainWebServer.Util

open Lib (Links DoublyLinked)

namespace LinkedLfu

variable {Key Value : Type}

/-! ## §1 The lists that the links make -/

/-- The links of `l` lead through these nodes. -/
structure Holds (m : Links Cell) (l : ListPtr) (nodes : List NodePtr) : Prop where
  linked : DoublyLinked m (.head l) (nodes.map .node) (.tail l)
  last : m.next (.tail l) = none

/-- The cells of a list. -/
def cells (l : ListPtr) (nodes : List NodePtr) : List Cell :=
  .head l :: .tail l :: nodes.map .node

theorem mem_cells {l : ListPtr} {nodes : List NodePtr} {c : Cell} :
    c ∈ cells l nodes ↔ c = .head l ∨ c = .tail l ∨ ∃ p ∈ nodes, Cell.node p = c := by
  simp [cells]

theorem cells_mono {l : ListPtr} {nodes nodes' : List NodePtr} (h : ∀ p ∈ nodes, p ∈ nodes')
    {c : Cell} (hc : c ∈ cells l nodes) : c ∈ cells l nodes' := by
  rw [mem_cells] at hc ⊢
  rcases hc with hc | hc | ⟨p, hp, hc⟩
  · exact .inl hc
  · exact .inr (.inl hc)
  · exact .inr (.inr ⟨p, h p hp, hc⟩)

/-- Lists with different sentinels and nodes share no cell. -/
theorem cells_disjoint {l l' : ListPtr} {nodes nodes' : List NodePtr} (hl : l' ≠ l)
    (hnodes : ∀ p ∈ nodes', p ∉ nodes) {c : Cell} (hc : c ∈ cells l' nodes') :
    c ∉ cells l nodes := by
  rw [mem_cells] at hc ⊢
  rcases hc with rfl | rfl | ⟨p, hp, rfl⟩
  · simp [hl]
  · simp [hl]
  · simpa using hnodes p hp

theorem nodup_cells {l : ListPtr} {nodes : List NodePtr} (h : nodes.Nodup) :
    (Cell.head l :: nodes.map Cell.node ++ [Cell.tail l]).Nodup := by
  have hmap : (nodes.map Cell.node).Nodup := h.map (fun _ _ heq => Cell.node.inj heq)
  simp [List.nodup_append, hmap]

namespace Holds

variable {m m' : Links Cell} {l : ListPtr} {nodes : List NodePtr}

/-- A list reads only its own cells. -/
theorem congr (h : Holds m l nodes) (hnext : ∀ c ∈ cells l nodes, m'.next c = m.next c)
    (hpre : ∀ c ∈ cells l nodes, m'.pre c = m.pre c) : Holds m' l nodes := by
  refine ⟨h.linked.congr (fun c hc => hnext c ?_) (fun c hc => hpre c ?_), ?_⟩
  · rw [mem_cells]
    rcases List.mem_cons.mp hc with rfl | hc
    · exact .inl rfl
    · exact .inr (.inr (List.mem_map.mp hc))
  · rw [mem_cells]
    rcases List.mem_append.mp hc with hc | hc
    · exact .inr (.inr (List.mem_map.mp hc))
    · exact .inr (.inl (List.mem_singleton.mp hc))
  · rw [hnext _ (mem_cells.mpr (.inr (.inl rfl))), h.last]

theorem isEmpty_iff (h : Holds m l nodes) : l.isEmpty m = true ↔ nodes = [] := by
  rw [ListPtr.isEmpty, decide_eq_true_eq, h.linked.next_eq]
  cases nodes with
  | nil => simp
  | cons p nodes => simp

/-- The first cell of an empty list is its tail. -/
theorem getFirstNode_eq (h : Holds m l nodes) :
    l.getFirstNode m = some ((nodes.head?.map Cell.node).getD (.tail l)) := by
  rw [ListPtr.getFirstNode, h.linked.next_eq]
  cases nodes with
  | nil => rfl
  | cons p nodes => rfl

/-- A new list is empty. -/
theorem new (m : Links Cell) (l : ListPtr) : Holds (l.new m) l [] := by
  refine ⟨⟨?_, ?_⟩, ?_⟩
  · simp [ListPtr.new]
  · simp [ListPtr.new]
  · simp [ListPtr.new]

/-- The constructor writes only the sentinels. -/
theorem new_frame (m : Links Cell) {l : ListPtr} {c : Cell} (hhead : c ≠ .head l)
    (htail : c ≠ .tail l) : (l.new m).next c = m.next c ∧ (l.new m).pre c = m.pre c := by
  simp [ListPtr.new, hhead, htail]

/-- `addNode` writes only cells of the list, and the new one. -/
theorem addNode (h : Holds m l nodes) (hnodup : nodes.Nodup) {p : NodePtr} (hp : p ∉ nodes) :
    ∃ m', l.addNode m p = some m' ∧ Holds m' l (nodes ++ [p]) ∧
      ∀ c, c ∉ cells l (nodes ++ [p]) → m'.next c = m.next c ∧ m'.pre c = m.pre c := by
  have hout : Cell.node p ∉ Cell.head l :: nodes.map Cell.node ++ [Cell.tail l] := by simp [hp]
  obtain ⟨m', hm', hlinked, hnext, hpre⟩ := h.linked.insertBefore (nodup_cells hnodup) hout
  refine ⟨m', hm', ⟨?_, ?_⟩, fun c hc => ?_⟩
  · rw [List.map_append]
    exact hlinked
  · rw [hnext _ (by simp) (by simp), h.last]
  · rw [mem_cells] at hc
    push Not at hc
    have hcp : c ≠ Cell.node p := (hc.2.2 p (by simp)).symm
    refine ⟨hnext c hcp ?_, hpre c hcp hc.2.1⟩
    intro hmem
    rcases List.mem_cons.mp hmem with rfl | hmem
    · exact hc.1 rfl
    · obtain ⟨q, hq, rfl⟩ := List.mem_map.mp hmem
      exact hc.2.2 q (List.mem_append_left _ hq) rfl

/-- `removeNode` writes only cells of the list. -/
theorem removeNode (h : Holds m l nodes) (hnodup : nodes.Nodup) {p : NodePtr} (hp : p ∈ nodes) :
    Holds (l.removeNode m (.node p)) l (nodes.erase p) ∧
      ∀ c, c ∉ cells l nodes → (l.removeNode m (.node p)).next c = m.next c ∧
        (l.removeNode m (.node p)).pre c = m.pre c := by
  have hmem : Cell.node p ∈ nodes.map Cell.node := List.mem_map_of_mem hp
  obtain ⟨hlinked, -, hnext, hpre⟩ := h.linked.unlink (nodup_cells hnodup) hmem
  have hinj : Function.Injective Cell.node := fun _ _ heq => Cell.node.inj heq
  refine ⟨⟨?_, ?_⟩, fun c hc => ?_⟩
  · rw [List.map_erase hinj]
    exact hlinked
  · rw [ListPtr.removeNode, hnext _ (by simp), h.last]
  · rw [mem_cells] at hc
    push Not at hc
    have hnode : c ∉ nodes.map Cell.node := by
      intro hmem
      obtain ⟨q, hq, rfl⟩ := List.mem_map.mp hmem
      exact hc.2.2 q hq rfl
    exact ⟨hnext c (by simp [hc.1, hnode]), hpre c (by simp [hc.2.1, hnode])⟩

end Holds

/-! ## §2 The two levels -/

/-- The state with lists in place of the pointers to them. -/
def view (c : LinkedLfu Key Value) (lists : AList (fun _ : Int => Option FreqList)) :
    RainLfu Key Value :=
  ⟨c.capacity_, c.minFreq_, c.maxAverageNum_, c.curAverageNum_, c.curTotalNum_, c.nodeMap_, lists,
    c.heap, c.fresh⟩

/-- An entry of `freqToFreqList_` on both levels. -/
inductive SameList (m : Links Cell) :
    Option (Option FreqList) → Option (Option ListPtr) → Prop where
  | absent : SameList m none none
  | listed (list : FreqList) (l : ListPtr) (h : Holds m l list.nodes) :
      SameList m (some (some list)) (some (some l))

theorem SameList.cases {m : Links Cell} {x : Option (Option FreqList)} {y : Option (Option ListPtr)}
    (h : SameList m x y) : (x = none ∧ y = none) ∨
      ∃ list l, x = some (some list) ∧ y = some (some l) ∧ Holds m l list.nodes := by
  cases h with
  | absent => exact .inl ⟨rfl, rfl⟩
  | listed list l h => exact .inr ⟨list, l, rfl, rfl, h⟩

theorem nodesAt_of_listAt {s : RainLfu Key Value} {f : Int} {list : FreqList}
    (h : s.listAt f = some list) : s.nodesAt f = list.nodes := by
  simp [RainLfu.nodesAt, h]

/-- The links of `c` make these lists. -/
structure Realises (c : LinkedLfu Key Value) (lists : AList (fun _ : Int => Option FreqList)) :
    Prop where
  same : ∀ f, SameList c.links (lists.lookup f) (c.freqToFreqList_.lookup f)
  /-- Every frequency has a list of its own, -/
  apart : ∀ f g l, c.listAt f = some l → c.listAt g = some l → f = g
  older : ∀ f l, c.listAt f = some l → l < c.freshList
  nodup : ∀ f, ((c.view lists).nodesAt f).Nodup
  /-- and every node is in one list at most. -/
  disjoint : ∀ f g p, p ∈ (c.view lists).nodesAt f → p ∈ (c.view lists).nodesAt g → f = g

/-- `c` is `s`, with links in place of the lists. -/
def Above (c : LinkedLfu Key Value) (s : RainLfu Key Value) : Prop :=
  ∃ lists, s = c.view lists ∧ c.Realises lists

/-- No lists. -/
theorem realises_empty {c : LinkedLfu Key Value} (h : c.freqToFreqList_ = ∅) : c.Realises ∅ := by
  have hnone : ∀ f, c.freqToFreqList_.lookup f = none := fun f => by rw [h, AList.lookup_empty]
  have hat : ∀ f l, c.listAt f ≠ some l := by
    intro f l hl
    rw [listAt, hnone] at hl
    cases hl
  refine ⟨fun f => ?_, fun f _ l hl => absurd hl (hat f l), fun f l hl => absurd hl (hat f l),
    fun f => List.nodup_nil, fun f g p hp => absurd hp List.not_mem_nil⟩
  rw [hnone, AList.lookup_empty]
  exact .absent

namespace Realises

variable {c : LinkedLfu Key Value} {lists : AList (fun _ : Int => Option FreqList)}

/-- Nothing but the lists and the links counts. -/
theorem congr (h : c.Realises lists) {d : LinkedLfu Key Value}
    (hlists : d.freqToFreqList_ = c.freqToFreqList_) (hlinks : d.links = c.links)
    (hfresh : d.freshList = c.freshList) : d.Realises lists := by
  have hat : ∀ f, d.listAt f = c.listAt f := fun f => by rw [listAt, listAt, hlists]
  refine ⟨fun f => ?_, fun f g l => ?_, fun f l => ?_, h.nodup, h.disjoint⟩
  · rw [hlists, hlinks]
    exact h.same f
  · rw [hat, hat]
    exact h.apart f g l
  · rw [hat, hfresh]
    exact h.older f l

/-- The list behind a pointer. -/
theorem holds (h : c.Realises lists) {f : Int} {l : ListPtr} (hl : c.listAt f = some l) :
    ∃ list, (c.view lists).listAt f = some list ∧ Holds c.links l list.nodes ∧
      (c.view lists).nodesAt f = list.nodes := by
  unfold listAt at hl
  rcases (h.same f).cases with ⟨-, hnone⟩ | ⟨list, l', hlist, hl', hholds⟩
  · rw [hnone] at hl
    cases hl
  · rw [hl'] at hl
    cases hl
    have hat : (c.view lists).listAt f = some list := congrArg Option.join hlist
    exact ⟨list, hat, hholds, nodesAt_of_listAt hat⟩

/-- The pointer to a list. -/
theorem listAt_eq (h : c.Realises lists) {f : Int} {list : FreqList}
    (hl : (c.view lists).listAt f = some list) :
    ∃ l, c.listAt f = some l ∧ Holds c.links l list.nodes := by
  change (lists.lookup f).join = some list at hl
  rcases (h.same f).cases with ⟨hnone, -⟩ | ⟨list', l, hlist, hl', hholds⟩
  · rw [hnone] at hl
    cases hl
  · rw [hlist] at hl
    cases hl
    exact ⟨l, congrArg Option.join hl', hholds⟩

/-! ## §3 Writing one list -/

theorem nodesAt_insert (c : LinkedLfu Key Value) (f g : Int) (list : FreqList)
    (lists : AList (fun _ : Int => Option FreqList)) :
    (c.view (lists.insert f (some list))).nodesAt g =
      if g = f then list.nodes else (c.view lists).nodesAt g := by
  have hat : (c.view (lists.insert f (some list))).listAt g =
      if g = f then some list else (c.view lists).listAt g :=
    RainLfu.listAt_setLists_insert (c.view lists) f g list lists
  rw [RainLfu.nodesAt, hat]
  split
  · rfl
  · rfl

/-- The list of `f` is replaced, and its cells are the only ones that are written. -/
theorem write (h : c.Realises lists) {f : Int} {l : ListPtr} (hl : c.listAt f = some l)
    {list : FreqList} {m : Links Cell} (hholds : Holds m l list.nodes)
    (hnodup : list.nodes.Nodup)
    (hnew : ∀ p ∈ list.nodes, ∀ g, g ≠ f → p ∉ (c.view lists).nodesAt g)
    (hframe : ∀ x, x ∉ cells l ((c.view lists).nodesAt f ++ list.nodes) →
      m.next x = c.links.next x ∧ m.pre x = c.links.pre x) :
    ({ c with links := m } : LinkedLfu Key Value).Realises (lists.insert f (some list)) := by
  refine ⟨fun g => ?_, h.apart, h.older, fun g => ?_, fun g g' p hg hg' => ?_⟩
  · by_cases hgf : g = f
    · subst hgf
      have hlook : c.freqToFreqList_.lookup g = some (some l) := by
        simpa [listAt, Option.join_eq_some_iff] using hl
      rw [AList.lookup_insert]
      exact hlook ▸ .listed list l hholds
    · rw [AList.lookup_insert_ne hgf]
      rcases (h.same g).cases with ⟨hnone, hnone'⟩ | ⟨list', l', hlist, hl', hother⟩
      · rw [hnone]
        exact hnone' ▸ .absent
      · rw [hlist]
        refine hl' ▸ .listed list' l' ?_
        -- another list has other cells
        have hll : l' ≠ l := fun heq =>
          hgf (h.apart g f l (heq ▸ congrArg Option.join hl') hl)
        have hmem : (c.view lists).nodesAt g = list'.nodes :=
          nodesAt_of_listAt (congrArg Option.join hlist)
        have hout : ∀ x ∈ cells l' list'.nodes,
            x ∉ cells l ((c.view lists).nodesAt f ++ list.nodes) := by
          intro x hx
          refine cells_disjoint hll (fun p hp hp' => ?_) hx
          rw [← hmem] at hp
          rcases List.mem_append.mp hp' with hp' | hp'
          · exact hgf (h.disjoint g f p hp hp')
          · exact hnew p hp' g hgf hp
        exact hother.congr (fun x hx => (hframe x (hout x hx)).1)
          (fun x hx => (hframe x (hout x hx)).2)
  · have hview : ∀ lists', ({ c with links := m } : LinkedLfu Key Value).view lists' =
        c.view lists' := fun _ => rfl
    rw [hview, nodesAt_insert]
    split
    · exact hnodup
    · exact h.nodup g
  · change p ∈ (c.view _).nodesAt g at hg
    change p ∈ (c.view _).nodesAt g' at hg'
    rw [nodesAt_insert] at hg hg'
    split at hg
    · rename_i hgf
      split at hg'
      · rename_i hgf'
        rw [hgf, hgf']
      · rename_i hgf'
        exact absurd hg' (hnew p hg g' hgf')
    · rename_i hgf
      split at hg'
      · exact absurd hg (hnew p hg' g hgf)
      · exact h.disjoint g g' p hg hg'

/-- A frequency has a list on both levels or on neither. -/
theorem mem_iff (h : c.Realises lists) (f : Int) : f ∈ c.freqToFreqList_ ↔ f ∈ lists := by
  rw [← AList.lookup_isSome, ← AList.lookup_isSome]
  rcases (h.same f).cases with ⟨hnone, hnone'⟩ | ⟨list, l, hlist, hl, -⟩
  · rw [hnone, hnone']
    rfl
  · rw [hlist, hl]
    rfl

/-! ## §4 Leaving and joining -/

/-- `removeFromFreqList` finds the list of the node, and takes the node out of all lists. -/
theorem removeFromFreqList (h : c.Realises lists) {p : NodePtr}
    (hp : p ∈ (c.view lists).nodesAt (c.heap p).freq) {t : RainLfu Key Value}
    (ht : (c.view lists).removeFromFreqList p = some t) :
    ∃ m lists', c.removeFromFreqList (.node p) = some { c with links := m } ∧
      t = c.view lists' ∧ ({ c with links := m } : LinkedLfu Key Value).Realises lists' ∧
      ∀ f, p ∉ (c.view lists').nodesAt f := by
  obtain ⟨list, hlist, heq⟩ := Option.bind_eq_some_iff.mp ht
  cases heq
  obtain ⟨l, hl, hholds⟩ := h.listAt_eq hlist
  have hnodes : (c.view lists).nodesAt (c.heap p).freq = list.nodes := nodesAt_of_listAt hlist
  have hnodup : list.nodes.Nodup := hnodes ▸ h.nodup _
  obtain ⟨hafter, hframe⟩ := hholds.removeNode hnodup (hnodes ▸ hp)
  refine ⟨l.removeNode c.links (.node p), lists.insert (c.heap p).freq (some (list.removeNode p)),
    ?_, rfl, h.write hl hafter (hnodup.erase p) (fun q hq g hg hmem => ?_) (fun x hx => ?_),
    fun f hf => ?_⟩
  · have hl' : c.listAt (c.freqOf (.node p)) = some l := hl
    rw [LinkedLfu.removeFromFreqList, hl']
    rfl
  · exact hg (h.disjoint g _ q hmem (hnodes ▸ List.mem_of_mem_erase hq))
  · refine hframe x (fun hmem => hx ?_)
    exact cells_mono (fun q hq => List.mem_append_left _ (hnodes.symm ▸ hq)) hmem
  · rw [nodesAt_insert] at hf
    split at hf
    · exact hnodup.not_mem_erase hf
    · rename_i hne
      exact hne (h.disjoint f _ p hf hp)

/-- A new list for a frequency. -/
theorem newFreqList (h : c.Realises lists) (f freq : Int) :
    (c.newFreqList f).Realises (lists.insert f (some (FreqList.new freq))) := by
  have hat : ∀ g, (c.newFreqList f).listAt g = if g = f then some c.freshList else c.listAt g := by
    intro g
    rw [listAt, LinkedLfu.newFreqList]
    split
    · rename_i hgf
      rw [hgf, AList.lookup_insert]
      rfl
    · rename_i hgf
      rw [AList.lookup_insert_ne hgf]
      rfl
  -- the address of the new list is no address in use
  have hold : ∀ g l, c.listAt g = some l → l ≠ c.freshList := fun g l hl =>
    Nat.ne_of_lt (h.older g l hl)
  have hview : ∀ lists' g, ((c.newFreqList f).view lists').nodesAt g =
      (c.view lists').nodesAt g := fun _ _ => rfl
  refine ⟨fun g => ?_, fun g g' l hg hg' => ?_, fun g l hl => ?_, fun g => ?_,
    fun g g' p hg hg' => ?_⟩
  · by_cases hgf : g = f
    · rw [hgf, AList.lookup_insert, LinkedLfu.newFreqList, AList.lookup_insert]
      exact .listed (FreqList.new freq) c.freshList (Holds.new c.links c.freshList)
    · rw [AList.lookup_insert_ne hgf, LinkedLfu.newFreqList, AList.lookup_insert_ne hgf]
      rcases (h.same g).cases with ⟨hnone, hnone'⟩ | ⟨list, l, hlist, hl, hholds⟩
      · rw [hnone, hnone']
        exact .absent
      · rw [hlist, hl]
        -- the sentinels of the new list are no cells of this one
        have hne : l ≠ c.freshList := hold g l (congrArg Option.join hl)
        have hframe : ∀ x ∈ cells l list.nodes,
            (c.freshList.new c.links).next x = c.links.next x ∧
              (c.freshList.new c.links).pre x = c.links.pre x := by
          intro x hx
          rw [mem_cells] at hx
          rcases hx with rfl | rfl | ⟨q, -, rfl⟩
          · exact Holds.new_frame c.links (by simp [hne]) (by simp)
          · exact Holds.new_frame c.links (by simp) (by simp [hne])
          · exact Holds.new_frame c.links (by simp) (by simp)
        exact .listed list l
          (hholds.congr (fun x hx => (hframe x hx).1) (fun x hx => (hframe x hx).2))
  · rw [hat] at hg hg'
    split at hg
    · rename_i hgf
      cases hg
      split at hg'
      · rename_i hgf'
        rw [hgf, hgf']
      · exact absurd rfl (hold g' _ hg')
    · split at hg'
      · cases hg'
        exact absurd rfl (hold g _ hg)
      · exact h.apart g g' l hg hg'
  · rw [hat] at hl
    show l < c.freshList + 1
    split at hl
    · cases hl
      exact Nat.lt_succ_self _
    · exact Nat.lt_succ_of_lt (h.older g l hl)
  · rw [hview, nodesAt_insert]
    split
    · exact List.nodup_nil
    · exact h.nodup g
  · rw [hview, nodesAt_insert] at hg hg'
    split at hg
    · cases hg
    · split at hg'
      · cases hg'
      · exact h.disjoint g g' p hg hg'

/-- `addToFreqList` when the list is there. -/
theorem addNode (h : c.Realises lists) {p : NodePtr} (hp : ∀ f, p ∉ (c.view lists).nodesAt f)
    {f : Int} {list : FreqList} (hlist : (lists.lookup f).join = some list) :
    ∃ l m, c.listAt f = some l ∧ l.addNode c.links p = some m ∧
      ({ c with links := m } : LinkedLfu Key Value).Realises
        (lists.insert f (some (list.addNode p))) := by
  obtain ⟨l, hl, hholds⟩ := h.listAt_eq (f := f) hlist
  have hnodes : (c.view lists).nodesAt f = list.nodes := nodesAt_of_listAt hlist
  have hnodup : list.nodes.Nodup := hnodes ▸ h.nodup f
  have hout : p ∉ list.nodes := hnodes ▸ hp f
  obtain ⟨m, hm, hafter, hframe⟩ := hholds.addNode hnodup hout
  refine ⟨l, m, hl, hm, h.write hl hafter ?_ (fun q hq g hg hmem => ?_) (fun x hx => ?_)⟩
  · exact List.Nodup.append hnodup (List.nodup_singleton p) (by simpa using hout)
  · rcases List.mem_append.mp hq with hq | hq
    · exact hg (h.disjoint g f q hmem (hnodes ▸ hq))
    · exact hp g (List.mem_singleton.mp hq ▸ hmem)
  · refine hframe x (fun hmem => hx ?_)
    exact cells_mono (fun q hq => List.mem_append_right _ hq) hmem

/-- `addToFreqList` of a node that is in no list. -/
theorem addToFreqList (h : c.Realises lists) {p : NodePtr}
    (hp : ∀ f, p ∉ (c.view lists).nodesAt f) {t : RainLfu Key Value}
    (ht : (c.view lists).addToFreqList p = some t) :
    ∃ d, c.addToFreqList p = some d ∧ d.Above t := by
  obtain ⟨f, hf⟩ : ∃ f, (c.heap p).freq = f := ⟨_, rfl⟩
  have heq : (c.view lists).addToFreqList p =
      ((if f ∈ lists then lists else lists.insert f (some (FreqList.new f))).lookup f).join.bind
        (fun list => some (c.view ((if f ∈ lists then lists
          else lists.insert f (some (FreqList.new f))).insert f (some (list.addNode p))))) :=
    hf ▸ rfl
  rw [heq] at ht
  by_cases hmem : f ∈ lists
  · rw [if_pos hmem] at ht
    obtain ⟨list, hlist, ht⟩ := Option.bind_eq_some_iff.mp ht
    obtain ⟨l, m, hl, hm, hafter⟩ := h.addNode hp hlist
    refine ⟨{ c with links := m }, ?_, _, (Option.some.inj ht).symm, hafter⟩
    have hmem' := (h.mem_iff f).mpr hmem
    simp only [LinkedLfu.addToFreqList, hf, if_pos hmem', hl, Option.bind_eq_bind,
      Option.bind_some, hm]
  · rw [if_neg hmem] at ht
    obtain ⟨list, hlist, ht⟩ := Option.bind_eq_some_iff.mp ht
    -- the list that is made for the node is empty
    have hp' : ∀ g, p ∉ ((c.newFreqList f).view
        (lists.insert f (some (FreqList.new f)))).nodesAt g := by
      intro g hg
      change p ∈ (c.view _).nodesAt g at hg
      rw [nodesAt_insert] at hg
      split at hg
      · cases hg
      · exact hp g hg
    obtain ⟨l, m, hl, hm, hafter⟩ := (h.newFreqList f f).addNode hp' hlist
    refine ⟨{ c.newFreqList f with links := m }, ?_, _, (Option.some.inj ht).symm, hafter⟩
    have hmem' := fun hin => hmem ((h.mem_iff f).mp hin)
    simp only [LinkedLfu.addToFreqList, hf, if_neg hmem', hl, Option.bind_eq_bind,
      Option.bind_some, hm]

end Realises

end LinkedLfu

end RainWebServer.Util
