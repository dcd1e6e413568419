import RainWebServer.Util.LinkedLfuLists
import RainWebServer.Util.RainLfuRange

/-!
# LinkedLfu Realises RainLfu

`addNode` and `removeNode` write links without looking at the rest, and the lists survive as long as
no node is linked into two of them at once. In a run it never is: every node that is put into a list
has just been made, or has just been taken out of the only list that held it. That this is so is
known of `RainLfu` (`Threaded`), and `LinkedLfu` follows it step by step.

## Main results

- `Realises.perform` : one operation on both
- `performAll_realises` : in every run the links are those of the lists, no pointer that is
  followed is null, and all answers are the same
-/

namespace RainWebServer.Util

open Lib (Links)

namespace LinkedLfu

variable {Key Value : Type}

namespace Realises

variable {c : LinkedLfu Key Value} {lists : AList (fun _ : Int => Option FreqList)}

/-! ## §1 Moving a node -/

/-- A node leaves its list and joins that of another frequency. -/
theorem relink (h : c.Realises lists) {p : NodePtr}
    (hp : p ∈ (c.view lists).nodesAt (c.heap p).freq) {f : Int} {s t : RainLfu Key Value}
    (hs : (c.view lists).removeFromFreqList p = some s)
    (ht : (s.setFreq p f).addToFreqList p = some t) :
    ∃ m d, c.removeFromFreqList (.node p) = some { c with links := m } ∧
      (({ c with links := m } : LinkedLfu Key Value).setFreq p f).addToFreqList p = some d ∧
      d.Above t := by
  obtain ⟨m, lists', hrem, rfl, hafter, hout⟩ := h.removeFromFreqList hp hs
  have hset : (({ c with links := m } : LinkedLfu Key Value).setFreq p f).Realises lists' :=
    hafter.congr rfl rfl rfl
  obtain ⟨d, hadd, habove⟩ := hset.addToFreqList hout ht
  exact ⟨m, d, hrem, hadd, habove⟩

/-- Aging one node. -/
theorem ageNode (h : c.Realises lists) {p : NodePtr}
    (hp : p ∈ (c.view lists).nodesAt (c.heap p).freq) {t : RainLfu Key Value}
    (ht : (c.view lists).ageNode p = some t) :
    ∃ d, c.ageNode p = some d ∧ d.Above t := by
  obtain ⟨s, hs, ht⟩ := Option.bind_eq_some_iff.mp ht
  obtain ⟨lists', rfl⟩ := RainLfu.exists_setLists_of_remove hs
  obtain ⟨m, d, hrem, hadd, habove⟩ := h.relink hp hs ht
  refine ⟨d, ?_, habove⟩
  rw [LinkedLfu.ageNode, hrem]
  exact hadd

/-- The test in `getInternal` has the same answer on both levels. -/
theorem leftMinList_eq (h : c.Realises lists) (p : NodePtr) :
    c.leftMinList p = (c.view lists).leftMinList p := by
  show (if (c.heap p).freq - 1 = c.minFreq_ then
      (c.listAt ((c.heap p).freq - 1)).map (·.isEmpty c.links) else some false) =
    if (c.heap p).freq - 1 = c.minFreq_ then
      ((c.view lists).listAt ((c.heap p).freq - 1)).map FreqList.isEmpty else some false
  split
  · cases hlist : (c.view lists).listAt ((c.heap p).freq - 1) with
    | none =>
      cases hl : c.listAt ((c.heap p).freq - 1) with
      | none => rfl
      | some l =>
        obtain ⟨list, hlist', -⟩ := h.holds hl
        rw [hlist] at hlist'
        cases hlist'
    | some list =>
      obtain ⟨l, hl, hholds⟩ := h.listAt_eq hlist
      rw [hl, Option.map_some, Option.map_some]
      refine congrArg some (Bool.eq_iff_iff.mpr ?_)
      rw [hholds.isEmpty_iff, FreqList.isEmpty, List.isEmpty_iff]
  · rfl

end Realises

/-! ## §2 The least frequency -/

/-- What bounds the result of `leastListed` from below. -/
theorem le_leastListed_iff (links : Links Cell) (k m : Int)
    (entries : List (Σ _ : Int, Option ListPtr)) :
    k ≤ leastListed links m entries ↔
      k ≤ m ∧ ∀ f l, (⟨f, some l⟩ : Σ _ : Int, Option ListPtr) ∈ entries →
        l.isEmpty links = false → k ≤ f := by
  induction entries generalizing m with
  | nil => simp [leastListed]
  | cons pair entries ih =>
    obtain ⟨g, o⟩ := pair
    cases o with
    | none =>
      have hstep : leastListed links m (⟨g, none⟩ :: entries) = leastListed links m entries := rfl
      rw [hstep, ih]
      simp
    | some l₀ =>
      have hstep : leastListed links m (⟨g, some l₀⟩ :: entries) =
          leastListed links (if l₀.isEmpty links then m else min m g) entries := rfl
      rw [hstep, ih]
      cases hempty : l₀.isEmpty links with
      | true =>
        -- an empty list is passed over
        rw [if_pos rfl]
        refine and_congr_right (fun _ => ⟨fun hall f l hmem hl => ?_, fun hall f l hmem => ?_⟩)
        · rcases List.mem_cons.mp hmem with heq | hmem
          · cases heq
            rw [hempty] at hl
            cases hl
          · exact hall f l hmem hl
        · exact hall f l (List.mem_cons_of_mem _ hmem)
      | false =>
        -- a list with nodes adds its frequency to the bounds
        rw [if_neg Bool.false_ne_true, le_min_iff, and_assoc]
        refine and_congr_right (fun _ => ⟨fun hall f l hmem hl => ?_, fun hall => ⟨?_, ?_⟩⟩)
        · rcases List.mem_cons.mp hmem with heq | hmem
          · cases heq
            exact hall.1
          · exact hall.2 f l hmem hl
        · exact hall g l₀ List.mem_cons_self hempty
        · exact fun f l hmem => hall f l (List.mem_cons_of_mem _ hmem)

theorem le_leastListed_lists_iff (s : RainLfu Key Value) (k m : Int) :
    k ≤ RainLfu.leastListed m s.freqToFreqList_.entries ↔
      k ≤ m ∧ ∀ f list, s.listAt f = some list → list.nodes ≠ [] → k ≤ f := by
  obtain ⟨hle, hall, hatt⟩ := RainLfu.leastListed_spec s.freqToFreqList_.entries m
  constructor
  · intro hk
    refine ⟨hk.trans hle, fun f list hlist hne => hk.trans (hall f list ?_ hne)⟩
    exact (RainLfu.mem_entries_iff_listAt s f list).mpr hlist
  · rintro ⟨hkm, hk⟩
    rcases hatt with heq | ⟨list, hmem, hne⟩
    · rw [heq]
      exact hkm
    · exact hk _ list ((RainLfu.mem_entries_iff_listAt s _ list).mp hmem) hne

theorem mem_entries_iff_listAt (c : LinkedLfu Key Value) (f : Int) (l : ListPtr) :
    (⟨f, some l⟩ : Σ _ : Int, Option ListPtr) ∈ c.freqToFreqList_.entries ↔
      c.listAt f = some l := by
  rw [← AList.mem_lookup_iff, listAt, Option.mem_def, Option.join_eq_some_iff]

namespace Realises

variable {c : LinkedLfu Key Value} {lists : AList (fun _ : Int => Option FreqList)}

/-- `updateMinFreq` finds the same frequency on both levels, whatever the order of the entries. -/
theorem updateMinFreq_eq (h : c.Realises lists) :
    (c.view lists).updateMinFreq = c.updateMinFreq.view lists := by
  have hsame : leastListed c.links int8Max c.freqToFreqList_.entries =
      RainLfu.leastListed int8Max (c.view lists).freqToFreqList_.entries := by
    refine eq_of_forall_le_iff (fun k => ?_)
    rw [le_leastListed_iff, le_leastListed_lists_iff]
    -- the lists that have nodes are the same ones
    refine and_congr_right (fun _ => ⟨fun hall f list hlist hne => ?_, fun hall f l hmem hl => ?_⟩)
    · obtain ⟨l, hl, hholds⟩ := h.listAt_eq hlist
      refine hall f l ((mem_entries_iff_listAt c f l).mpr hl) (Bool.eq_false_iff.mpr ?_)
      exact fun hempty => hne (hholds.isEmpty_iff.mp hempty)
    · obtain ⟨list, hlist, hholds, -⟩ := h.holds ((mem_entries_iff_listAt c f l).mp hmem)
      refine hall f list hlist (fun hnil => ?_)
      rw [hholds.isEmpty_iff.mpr hnil] at hl
      cases hl
  simp only [RainLfu.updateMinFreq, LinkedLfu.updateMinFreq, hsame]
  rfl

section Keyed

variable [DecidableEq Key] [Inhabited Key] [Inhabited Value]

/-! ## §3 Accesses -/

/-- The aging loop. -/
theorem foldlM_ageNode {L : List NodePtr} (h : c.Realises lists)
    (hthreaded : (c.view lists).Threaded) (hres : ∀ p ∈ L, (c.view lists).Resident p)
    {t : RainLfu Key Value} (ht : L.foldlM RainLfu.ageNode (c.view lists) = some t) :
    ∃ d, L.foldlM LinkedLfu.ageNode c = some d ∧ d.Above t := by
  -- induction on the nodes still to be visited; they stay resident
  induction L generalizing c lists with
  | nil =>
    cases ht
    exact ⟨c, rfl, lists, rfl, h⟩
  | cons p L ih =>
    have hp := hres p List.mem_cons_self
    rw [List.foldlM_cons] at ht
    obtain ⟨u, hu, hrest⟩ := Option.bind_eq_some_iff.mp ht
    obtain ⟨u', hu', hthreaded', hkept, -⟩ := hthreaded.ageNode hp
    have heq : u' = u := Option.some.inj (hu'.symm.trans hu)
    subst heq
    obtain ⟨e, he, lists', rfl, hrealises⟩ := h.ageNode (hthreaded.placed p hp) hu
    obtain ⟨d, hd, habove⟩ := ih hrealises hthreaded'
      (fun q hq => (hkept.resident_iff q).mpr (hres q (List.mem_cons_of_mem _ hq))) hrest
    refine ⟨d, ?_, habove⟩
    rw [List.foldlM_cons, he]
    exact hd

theorem handleOverMaxAverageNum (h : c.Realises lists) (hthreaded : (c.view lists).Threaded)
    {env : Env Key} {t : RainLfu Key Value}
    (ht : (c.view lists).handleOverMaxAverageNum env = some t) :
    ∃ d, c.handleOverMaxAverageNum env = some d ∧ d.Above t := by
  have hsize : (c.view lists).size = c.size := rfl
  rw [RainLfu.handleOverMaxAverageNum, hsize] at ht
  rw [LinkedLfu.handleOverMaxAverageNum]
  by_cases hempty : c.size = 0
  · rw [if_pos hempty] at ht ⊢
    cases ht
    exact ⟨c, rfl, lists, rfl, h⟩
  · rw [if_neg hempty] at ht ⊢
    obtain ⟨u, hu, hmin⟩ := Option.bind_eq_some_iff.mp ht
    obtain ⟨d, hd, lists', rfl, hrealises⟩ := h.foldlM_ageNode hthreaded
      (fun p hp => (env.order_perm _).mem_iff.mp hp) hu
    refine ⟨d.updateMinFreq, ?_, lists', ?_, hrealises.congr rfl rfl rfl⟩
    · have hptrs : (c.view lists).nodePtrs = c.nodePtrs := rfl
      rw [hptrs] at hd
      rw [hd]
      rfl
    · rw [← hrealises.updateMinFreq_eq]
      exact (Option.some.inj hmin).symm

theorem addFreqNum (h : c.Realises lists) (hthreaded : (c.view lists).Threaded) {env : Env Key}
    {t : RainLfu Key Value} (ht : (c.view lists).addFreqNum env = some t) :
    ∃ d, c.addFreqNum env = some d ∧ d.Above t := by
  obtain ⟨n, hn⟩ : ∃ n, c.curTotalNum_ + 1 = n := ⟨_, rfl⟩
  have hcounted : (c.setTotal n).Realises lists := h.congr rfl rfl rfl
  have hthreaded' : ((c.setTotal n).view lists).Threaded := hthreaded.setTotal n
  have hview : (c.view lists).addFreqNum env =
      if (c.setTotal n).curAverageNum_ > (c.setTotal n).maxAverageNum_ then
        ((c.setTotal n).view lists).handleOverMaxAverageNum env
      else some ((c.setTotal n).view lists) := hn ▸ rfl
  rw [hview] at ht
  rw [LinkedLfu.addFreqNum, hn]
  show ∃ d, (if (c.setTotal n).curAverageNum_ > (c.setTotal n).maxAverageNum_ then
    (c.setTotal n).handleOverMaxAverageNum env else some (c.setTotal n)) = some d ∧ d.Above t
  split at ht
  · rename_i hfires
    rw [if_pos hfires]
    exact hcounted.handleOverMaxAverageNum hthreaded' ht
  · rename_i hfires
    rw [if_neg hfires]
    cases ht
    exact ⟨_, rfl, lists, rfl, hcounted⟩

/-- A hit. -/
theorem getInternal (h : c.Realises lists) (hthreaded : (c.view lists).Threaded) {p : NodePtr}
    (hres : (c.view lists).Resident p) {env : Env Key} {v : Value} {t : RainLfu Key Value}
    (ht : (c.view lists).getInternal env p = some (v, t)) :
    ∃ d, c.getInternal env p = some (v, d) ∧ d.Above t := by
  have hp := hthreaded.placed p hres
  have hpos : 1 ≤ (c.heap p).freq + 1 :=
    Int.le_add_one (hthreaded.freq_pos p (hthreaded.mapped p hres))
  obtain ⟨s₁, hs₁, ht⟩ := Option.bind_eq_some_iff.mp ht
  obtain ⟨lists₁, rfl⟩ := RainLfu.exists_setLists_of_remove hs₁
  obtain ⟨s₂, hs₂, ht⟩ := Option.bind_eq_some_iff.mp ht
  obtain ⟨moved, hmoved, ht⟩ := Option.bind_eq_some_iff.mp ht
  obtain ⟨s₃, hs₃, ht⟩ := Option.bind_eq_some_iff.mp ht
  cases ht
  -- the lists stay threaded
  have hthreaded₂ : s₂.Threaded := (hthreaded.relinked_of hp hpos hs₁ hs₂).2
  obtain ⟨m, d₂, hrem, hadd, lists₂, rfl, hrealises⟩ := h.relink hp hs₁ hs₂
  -- `minFreq_` moves up on both levels or on neither
  rw [← hrealises.leftMinList_eq p] at hmoved
  obtain ⟨f, hset, hset', hf⟩ : ∃ f,
      (if moved then d₂.setMinFreq (d₂.minFreq_ + 1) else d₂) = d₂.setMinFreq f ∧
      (if moved then (d₂.view lists₂).setMinFreq ((d₂.view lists₂).minFreq_ + 1)
        else d₂.view lists₂) = (d₂.view lists₂).setMinFreq f ∧ 1 ≤ f := by
    cases moved with
    | false => exact ⟨d₂.minFreq_, rfl, rfl, hthreaded₂.minFreq_pos⟩
    | true => exact ⟨d₂.minFreq_ + 1, rfl, rfl, Int.le_add_one hthreaded₂.minFreq_pos⟩
  rw [hset'] at hs₃
  have hmin : (d₂.setMinFreq f).Realises lists₂ := hrealises.congr rfl rfl rfl
  obtain ⟨d, hd, habove⟩ := hmin.addFreqNum (hthreaded₂.setMinFreq hf) hs₃
  refine ⟨d, ?_, habove⟩
  have hadd' : (({ c with links := m } : LinkedLfu Key Value).setFreq p
      ((({ c with links := m } : LinkedLfu Key Value).heap p).freq + 1)).addToFreqList p =
        some d₂ := hadd
  simp only [LinkedLfu.getInternal, hrem, hadd', hmoved, hset, hd, Option.bind_eq_bind,
    Option.bind_some]
  rfl

/-! ## §4 Room for a new key -/

omit [DecidableEq Key] [Inhabited Key] [Inhabited Value] in
/-- The tail sentinel has nothing behind it, and `removeNode` leaves it where it is. -/
theorem removeTail (h : c.Realises lists) {f : Int} {l : ListPtr} (hl : c.listAt f = some l)
    {list : FreqList} (hone : (c.view lists).listAt 1 = some list) :
    c.removeFromFreqList (.tail l) = some c := by
  obtain ⟨_, -, hholds, -⟩ := h.holds hl
  obtain ⟨l₁, hl₁, -⟩ := h.listAt_eq hone
  have hat : c.listAt (c.freqOf (.tail l)) = some l₁ := hl₁
  have hstay : l₁.removeNode c.links (.tail l) = c.links := by
    rw [ListPtr.removeNode, Links.unlink, hholds.last]
    split
    · rename_i hnone
      cases hnone
    · rfl
  rw [LinkedLfu.removeFromFreqList, hat, Option.bind_eq_bind, Option.bind_some, hstay]

/-- `kickOut` takes the same cell on both levels, the tail of an empty list too. -/
theorem kickOut (h : c.Realises lists) (hthreaded : (c.view lists).Threaded) {env : Env Key}
    {t : RainLfu Key Value} (ht : (c.view lists).kickOut env = some t) :
    ∃ d, c.kickOut env = some d ∧ d.Above t := by
  obtain ⟨list, hlist, hkick⟩ := Option.bind_eq_some_iff.mp ht
  obtain ⟨l, hl, hholds⟩ := h.listAt_eq hlist
  have hl' : c.listAt c.minFreq_ = some l := hl
  have hfirst := hholds.getFirstNode_eq
  have hhead : list.getFirstNode = list.nodes.head? := rfl
  rw [hhead] at hkick
  cases hnode : list.nodes.head? with
  | some p =>
    -- a first node, whose own frequency is that of the list
    rw [hnode] at hkick hfirst
    have hnodes : (c.view lists).nodesAt c.minFreq_ = list.nodes := nodesAt_of_listAt hlist
    have hp : p ∈ (c.view lists).nodesAt c.minFreq_ := hnodes ▸ List.mem_of_head? hnode
    have hfreq : (c.heap p).freq = c.minFreq_ := hthreaded.own _ p hp
    obtain ⟨u, hu, hdone⟩ := Option.bind_eq_some_iff.mp hkick
    cases hdone
    obtain ⟨m, lists', hrem, rfl, hafter, -⟩ := h.removeFromFreqList (hfreq.symm ▸ hp) hu
    refine ⟨(({ c with links := m } : LinkedLfu Key Value).eraseKey
      (c.heap p).key).decreaseFreqNum (c.heap p).freq, ?_, lists', rfl, hafter.congr rfl rfl rfl⟩
    have hcell : l.getFirstNode c.links = some (.node p) := hfirst
    simp only [LinkedLfu.kickOut, hl', hcell, hrem, Option.bind_eq_bind, Option.bind_some]
    rfl
  | none =>
    -- an empty list, whose tail is taken for a node of frequency 1
    rw [hnode] at hkick hfirst
    obtain ⟨list₁, hlist₁, hdone⟩ := Option.bind_eq_some_iff.mp hkick
    cases hdone
    have hrem := h.removeTail hl' hlist₁
    refine ⟨(c.eraseKey env.sentinelKey).decreaseFreqNum 1, ?_, lists, rfl,
      h.congr rfl rfl rfl⟩
    have hcell : l.getFirstNode c.links = some (.tail l) := hfirst
    simp only [LinkedLfu.kickOut, hl', hcell, hrem, Option.bind_eq_bind, Option.bind_some]
    rfl

omit [Inhabited Key] [Inhabited Value] in
/-- A new node has links of its own. -/
theorem makeNode (h : c.Realises lists) (hfresh : ∀ f, c.fresh ∉ (c.view lists).nodesAt f)
    (key : Key) (value : Value) : (c.makeNode key value).Realises lists := by
  refine ⟨fun f => ?_, h.apart, h.older, h.nodup, h.disjoint⟩
  rcases (h.same f).cases with ⟨hnone, hnone'⟩ | ⟨list, l, hlist, hl, -⟩
  · rw [hnone]
    exact hnone' ▸ .absent
  · rw [hlist]
    refine hl ▸ .listed list l ?_
    obtain ⟨list', hlist', hholds, hnodes⟩ := h.holds (congrArg Option.join hl)
    have heq : list' = list :=
      Option.some.inj (hlist'.symm.trans (congrArg Option.join hlist))
    subst heq
    have hne : ∀ x ∈ cells l list'.nodes, x ≠ .node c.fresh := by
      rintro x hx rfl
      rw [mem_cells] at hx
      rcases hx with hx | hx | ⟨q, hq, hx⟩
      · cases hx
      · cases hx
      · cases hx
        exact hfresh f (hnodes.symm ▸ hq)
    refine hholds.congr (fun x hx => ?_) (fun x hx => ?_)
    · simp [LinkedLfu.makeNode, hne x hx]
    · simp [LinkedLfu.makeNode, hne x hx]

/-- The second half of `putInternal`. -/
theorem insertNew (h : c.Realises lists) (hthreaded : (c.view lists).Threaded) {key : Key}
    (hkey : c.nodeMap_.lookup key = none) {value : Value} {env : Env Key} {t : RainLfu Key Value}
    (ht : (c.view lists).insertNew env key value = some t) :
    ∃ d e, (c.makeNode key value).addToFreqList c.fresh = some d ∧ d.addFreqNum env = some e ∧
      (e.setMinFreq (min e.minFreq_ 1)).Above t := by
  obtain ⟨u, hu, ht⟩ := Option.bind_eq_some_iff.mp ht
  obtain ⟨w, hw, ht⟩ := Option.bind_eq_some_iff.mp ht
  cases ht
  obtain ⟨lists', hadd, hthreaded', -⟩ := hthreaded.makeNode value hkey
  have hst : ((c.view lists).makeNode key value).setLists lists' = u :=
    Option.some.inj (hadd.symm.trans hu)
  -- the address of a new node is in no list
  have hfresh : ∀ f, c.fresh ∉ (c.view lists).nodesAt f := fun f hmem =>
    Nat.lt_irrefl _ (hthreaded.listed f c.fresh hmem).1
  obtain ⟨d, hd, lists₁, rfl, hrealises⟩ := (h.makeNode hfresh key value).addToFreqList hfresh hu
  obtain ⟨e, he, lists₂, rfl, hdone⟩ := hrealises.addFreqNum (hst ▸ hthreaded') hw
  exact ⟨d, e, hd, he, lists₂, rfl, hdone.congr rfl rfl rfl⟩

omit [Inhabited Key] [Inhabited Value] in
theorem putInternal_eq (s : LinkedLfu Key Value) (env : Env Key) (key : Key) (value : Value) :
    s.putInternal env key value =
      (if (s.size : Int) = s.capacity_ then s.kickOut env else some s).bind (fun t =>
        ((t.makeNode key value).addToFreqList t.fresh).bind (fun u =>
          (u.addFreqNum env).bind (fun v => some (v.setMinFreq (min v.minFreq_ 1))))) := by
  unfold LinkedLfu.putInternal
  split
  · rfl
  · rfl

/-- The first half of `putInternal`: the key stays absent, and the cache threaded. -/
theorem makeRoom (h : c.Realises lists) (hsturdy : (c.view lists).Sturdy) {key : Key}
    (hkey : c.nodeMap_.lookup key = none) (hcap : c.capacity_ ≠ 0) {env : Env Key}
    {s : RainLfu Key Value} (hs : (c.view lists).makeRoom env = some s) :
    ∃ d, (if (c.size : Int) = c.capacity_ then c.kickOut env else some c) = some d ∧ d.Above s ∧
      s.Threaded ∧ d.nodeMap_.lookup key = none := by
  have hview : (c.view lists).makeRoom env = if (c.size : Int) = c.capacity_ then
      (c.view lists).kickOut env else some (c.view lists) := rfl
  rw [hview] at hs
  split at hs
  · rename_i hfull
    rw [if_pos hfull]
    obtain ⟨d, hd, lists', rfl, hrealises⟩ := h.kickOut hsturdy.toThreaded hs
    obtain ⟨u, lost, hu, hdone, -, hmap, -⟩ :=
      hsturdy.toThreaded.kickOut (hsturdy.led_of_full hcap hfull) env
    have hst : u = d.view lists' := Option.some.inj (hu.symm.trans hs)
    subst hst
    have hmap' : d.nodeMap_ = c.nodeMap_.erase lost := hmap
    exact ⟨d, hd, ⟨lists', rfl, hrealises⟩, hdone,
      hmap' ▸ RainLfu.lookup_erase_eq_none hkey lost⟩
  · rename_i hfull
    rw [if_neg hfull]
    cases hs
    exact ⟨c, rfl, ⟨lists, rfl, h⟩, hsturdy.toThreaded, hkey⟩

/-- A new key. -/
theorem putInternal (h : c.Realises lists) (hsturdy : (c.view lists).Sturdy) {key : Key}
    (hkey : c.nodeMap_.lookup key = none) (hcap : c.capacity_ ≠ 0) {value : Value} {env : Env Key}
    {t : RainLfu Key Value} (ht : (c.view lists).putInternal env key value = some t) :
    ∃ d, c.putInternal env key value = some d ∧ d.Above t := by
  rw [RainLfu.putInternal_eq] at ht
  obtain ⟨s, hs, ht⟩ := Option.bind_eq_some_iff.mp ht
  obtain ⟨c', hroom, ⟨lists', rfl, hrealises⟩, hthreaded, hkey'⟩ := h.makeRoom hsturdy hkey hcap hs
  obtain ⟨d, e, hd, he, habove⟩ := hrealises.insertNew hthreaded hkey' ht
  refine ⟨_, ?_, habove⟩
  rw [putInternal_eq, hroom, Option.bind_some, hd, Option.bind_some, he, Option.bind_some]

/-! ## §5 One operation -/

/-- **One operation** on both levels. -/
theorem perform (h : c.Realises lists) (hsturdy : (c.view lists).Sturdy) {env : Env Key}
    {op : RainLfu.Op Key Value} {t : RainLfu Key Value} {result : Option Value}
    (ht : (c.view lists).perform env op = some (t, result)) :
    ∃ d, c.perform env op = some (d, result) ∧ d.Above t := by
  have hcapacity : (c.view lists).capacity_ = c.capacity_ := rfl
  have hmap : (c.view lists).nodeMap_ = c.nodeMap_ := rfl
  cases op with
  | put key value =>
    obtain ⟨u, hu, heq⟩ := Option.map_eq_some_iff.mp ht
    cases heq
    rw [RainLfu.put, hcapacity, hmap] at hu
    rw [LinkedLfu.perform, LinkedLfu.put]
    by_cases hcap : c.capacity_ = 0
    · rw [if_pos hcap] at hu ⊢
      cases hu
      exact ⟨c, rfl, lists, rfl, h⟩
    rw [if_neg hcap] at hu ⊢
    cases hlook : c.nodeMap_.lookup key with
    | none =>
      rw [hlook] at hu
      obtain ⟨d, hd, habove⟩ := h.putInternal hsturdy hlook hcap hu
      exact ⟨d, by simp only [hd, Option.map_some], habove⟩
    | some p =>
      -- the value is overwritten first, on both levels
      rw [hlook] at hu
      obtain ⟨⟨v, w⟩, hw, heq⟩ := Option.map_eq_some_iff.mp hu
      cases heq
      have hres : (c.view lists).Resident p := (RainLfu.resident_iff _ p).mpr ⟨key, hlook⟩
      have hset : (c.setValue p value).Realises lists := h.congr rfl rfl rfl
      have hthreaded : ((c.setValue p value).view lists).Threaded :=
        hsturdy.toThreaded.setValue hres value
      obtain ⟨d, hd, habove⟩ := hset.getInternal hthreaded hres hw
      exact ⟨d, by simp only [hd, Option.map_some], habove⟩
  | get key =>
    obtain ⟨u, hu, heq⟩ := Option.map_eq_some_iff.mp ht
    cases heq
    rw [RainLfu.get, hmap] at hu
    rw [LinkedLfu.perform, LinkedLfu.get]
    cases hlook : c.nodeMap_.lookup key with
    | none =>
      rw [hlook] at hu
      cases hu
      exact ⟨c, rfl, lists, rfl, h⟩
    | some p =>
      rw [hlook] at hu
      obtain ⟨⟨v, w⟩, hw, heq⟩ := Option.map_eq_some_iff.mp hu
      cases heq
      have hres : (c.view lists).Resident p := (RainLfu.resident_iff _ p).mpr ⟨key, hlook⟩
      obtain ⟨d, hd, habove⟩ := h.getInternal hsturdy.toThreaded hres hw
      exact ⟨d, by simp only [hd, Option.map_some], habove⟩
  | purge =>
    cases ht
    exact ⟨c.purge, rfl, ∅, rfl, realises_empty rfl⟩

/-- **A run** on both levels. -/
theorem performAll (h : c.Realises lists) (hsturdy : (c.view lists).Sturdy)
    {ops : List (RainLfu.Op Key Value × Env Key)} {t : RainLfu Key Value}
    {results : List (Option Value)} (ht : (c.view lists).performAll ops = some (t, results)) :
    ∃ d, c.performAll ops = some (d, results) ∧ d.Above t := by
  -- the run on lists goes on as long as it is sturdy, and the links follow it
  induction ops generalizing c lists results with
  | nil =>
    cases ht
    exact ⟨c, rfl, lists, rfl, h⟩
  | cons head rest ih =>
    obtain ⟨op, env⟩ := head
    obtain ⟨u, result, hu, hsturdy', -⟩ := hsturdy.perform env op
    have hrest : (u.performAll rest).bind (fun r => some (r.1, result :: r.2)) =
        some (t, results) := by
      rw [RainLfu.performAll, hu] at ht
      exact ht
    obtain ⟨⟨w, others⟩, hw, heq⟩ := Option.bind_eq_some_iff.mp hrest
    cases heq
    obtain ⟨e, he, lists', rfl, hrealises⟩ := h.perform hsturdy hu
    obtain ⟨d, hd, habove⟩ := ih hrealises hsturdy' hw
    refine ⟨d, ?_, habove⟩
    simp only [LinkedLfu.performAll, he, hd, Option.bind_eq_bind, Option.bind_some]

end Keyed

end Realises

/-! ## §6 Runs -/

section Keyed

variable [DecidableEq Key] [Inhabited Key] [Inhabited Value]

/-- A run of a new cache, on both levels. -/
theorem realises_new (capacity maxAverageNum : Int)
    (ops : List (RainLfu.Op Key Value × Env Key)) :
    ∃ d lists results, (new capacity maxAverageNum).performAll ops = some (d, results) ∧
      (RainLfu.new capacity maxAverageNum).performAll ops = some (d.view lists, results) ∧
      d.Realises lists := by
  have hsturdy : (RainLfu.new capacity maxAverageNum : RainLfu Key Value).Sturdy :=
    RainLfu.sturdy_new capacity maxAverageNum
  obtain ⟨t, results, ht, -⟩ := hsturdy.performAll ops
  have hnew : (new capacity maxAverageNum : LinkedLfu Key Value).Realises ∅ := realises_empty rfl
  obtain ⟨d, hd, lists, rfl, hrealises⟩ := hnew.performAll hsturdy ht
  exact ⟨d, lists, results, hd, ht, hrealises⟩

/-- **The links are the lists of the cache**, after any operations on a new cache of any capacity
    and any maximum that is not negative. No pointer that is followed is null, every list leads from
    its head to its tail and back, no node is in two of them, all answers are those of `RainLfu`,
    and no counter overflows on the way. -/
theorem performAll_realises (capacity : Int) {maxAverageNum : Int} (hmax : 0 ≤ maxAverageNum)
    {ops : List (RainLfu.Op Key Value × Env Key)} (hops : RainLfuHash.accesses ops < 2 ^ 31) :
    ∃ d lists results, (new capacity maxAverageNum).performAll ops = some (d, results) ∧
      (RainLfu.new capacity maxAverageNum).performAll ops = some (d.view lists, results) ∧
      d.Realises lists ∧
      ∀ before e answers, before <+: ops →
        (new capacity maxAverageNum).performAll before = some (e, answers) → (e.view ∅).Ints := by
  obtain ⟨d, lists, results, hd, ht, hrealises⟩ := realises_new capacity maxAverageNum ops
  refine ⟨d, lists, results, hd, ht, hrealises, fun before e answers hbefore he => ?_⟩
  obtain ⟨e', lists', answers', he', hu, -⟩ := realises_new capacity maxAverageNum before
  rw [he, Option.some.injEq, Prod.mk.injEq] at he'
  -- the counters do not depend on the lists
  have hints : (e'.view lists').Ints := RainLfu.performAll_ints capacity hmax hops hbefore hu
  rw [he'.1]
  exact ⟨hints.minFreq, hints.average, hints.total, hints.freq⟩

theorem oneEntry_realises :
    ∃ d lists, (new 1 1 : LinkedLfu Nat Nat).performAll RainLfu.oneEntry =
        some (d, [none, some 10, some 10, none, none, some 20, none, none]) ∧
      d.Realises lists ∧ (d.view ∅).Ints := by
  have hfew : RainLfuHash.accesses RainLfu.oneEntry < 2 ^ 31 := by decide
  obtain ⟨d, lists, results, hd, -, hrealises, hints⟩ := performAll_realises 1 Int.one_nonneg hfew
  have hresults : ((new 1 1 : LinkedLfu Nat Nat).performAll RainLfu.oneEntry).map Prod.snd =
      some [none, some 10, some 10, none, none, some 20, none, none] := by decide +kernel
  rw [hd, Option.map_some, Option.some.injEq] at hresults
  change results = _ at hresults
  subst hresults
  exact ⟨d, lists, hd, hrealises, hints _ d _ (List.prefix_refl _) hd⟩

end Keyed

end LinkedLfu

end RainWebServer.Util
