import RainWebServer.Memory.PageCacheSpans

/-!
# PageCache: Runs

What `allocateSpan` and `deallocateSpan` do to the spans, and what holds after every run.

A key of `freeSpans_` may be present with a null head: `deallocateSpan` looks up the list of the
span behind the freed one with `operator[]`, which makes the key, and takes the last span off a
list without erasing the key. `allocateSpan` finds such a key with `lower_bound` and dereferences
the null head. That is the only way in which a call faults.

A request of `2 ^ 52` pages or more wraps in `systemAlloc`. If the system grants what is left of
it, then the span that is handed out has more pages than were mapped.

## Main results

- `SpanIdle.allocateSpan`, `SpanIdle.deallocateSpan` : a call keeps the invariant
- `pageCache_spans_consistent` : live and free spans tile the memory obtained from the system, as
  long as no granted request wraps
- `hugeSpanRun_not_consistent` : a request of `2 ^ 52 + 1` pages maps one page
- `pageCache_no_null_list` : runs on which no list is left empty
-/

namespace RainWebServer.Memory

open RainWebServer.Lib

/-! ## §1 Lists and keys -/

section Keys

variable {k v : Nat}

/-- The heads after an entry of `freeSpans_` was set. -/
theorem head_insert (p p' : PageCache) (h : p'.freeSpans_ = p.freeSpans_.insert k v) :
    p'.head k = v ∧ ∀ j, j ≠ k → p'.head j = p.head j := by
  unfold PageCache.head
  rw [h]
  refine ⟨by rw [AList.lookup_insert]; rfl, fun j hj => ?_⟩
  rw [AList.lookup_insert_ne hj]

/-- The heads after an entry of `freeSpans_` was erased. -/
theorem head_erase (p p' : PageCache) (h : p'.freeSpans_ = p.freeSpans_.erase k) :
    p'.head k = 0 ∧ ∀ j, j ≠ k → p'.head j = p.head j := by
  unfold PageCache.head
  rw [h]
  refine ⟨by rw [AList.lookup_erase]; rfl, fun j hj => ?_⟩
  rw [AList.lookup_erase_ne hj]

/-- The entry that `lower_bound` finds. -/
theorem lowerBound_eq_some {m : AList (fun _ : Nat => Nat)} {n : Nat}
    (h : lowerBound m n = some (k, v)) : n ≤ k ∧ m.lookup k = some v := by
  obtain ⟨j, hj, hv⟩ := Option.bind_eq_some_iff.mp h
  obtain ⟨w, hw, heq⟩ := Option.map_eq_some_iff.mp hv
  rw [Prod.mk.injEq] at heq
  obtain ⟨rfl, rfl⟩ := heq
  have hmem := List.min?_mem hj
  rw [List.mem_filter, decide_eq_true_eq] at hmem
  exact ⟨hmem.2, hw⟩

end Keys

/-- The links after one object was relinked. -/
theorem nextOf_update {spans : Nat → Option Span} (id c : Nat) (span : Span) :
    nextOf (Function.update spans id (some { span with next := c })) =
      Function.update (nextOf spans) id c := by
  funext i
  rcases Nat.decEq i id with hne | rfl
  · rw [nextOf, Function.update_of_ne hne, Function.update_of_ne hne, nextOf]
  · rw [nextOf, Function.update_self, Function.update_self]
    rfl

/-! ## §2 The search behind the head -/

section Search

variable {spans : Nat → Option Span} {nextId c : Nat}

/-- A list without `nextId` is searched to its end. -/
theorem unlinkNext_of_not_mem {prev fuel : Nat} {l : List Nat}
    (hchain : Chain (nextOf spans) 0 prev (prev :: l)) (hobjects : ∀ i ∈ prev :: l, spans i ≠ none)
    (hfuel : l.length < fuel) (hnot : nextId ∉ l) :
    PageCache.unlinkNext nextId c spans fuel prev = some (spans, false) := by
  induction l generalizing prev fuel with
  | nil =>
    obtain ⟨fuel, rfl⟩ := Nat.exists_eq_add_of_lt hfuel
    obtain ⟨span, hspan⟩ := Option.ne_none_iff_exists'.mp (hobjects prev List.mem_cons_self)
    have hlast : nextOf spans prev = 0 := hchain.2.2
    rw [SpanInv.nextOf_eq hspan] at hlast
    simp [PageCache.unlinkNext, hspan, hlast]
  | cons b l ih =>
    obtain ⟨fuel, rfl⟩ := Nat.exists_eq_add_of_lt hfuel
    obtain ⟨span, hspan⟩ := Option.ne_none_iff_exists'.mp (hobjects prev List.mem_cons_self)
    obtain ⟨hlink, hb, hrest⟩ := hchain.2.2
    rw [SpanInv.nextOf_eq hspan] at hlink
    have hbne : b ≠ nextId := by
      rintro rfl
      exact hnot List.mem_cons_self
    simp only [PageCache.unlinkNext, hspan, hlink, hb, hbne, if_false]
    apply ih ⟨rfl, hb, hrest⟩ (fun i hi => hobjects i (List.mem_cons_of_mem _ hi))
    · rw [List.length_cons]
      omega
    · exact fun hmem => hnot (List.mem_cons_of_mem _ hmem)

/-- Behind the head the search finds the cell that links to `nextId`. -/
theorem unlinkNext_of_mem {prev fuel : Nat} {l₁ l₂ : List Nat}
    (hchain : Chain (nextOf spans) 0 prev (prev :: l₁ ++ nextId :: l₂))
    (hobjects : ∀ i ∈ prev :: l₁ ++ nextId :: l₂, spans i ≠ none)
    (hfuel : (l₁ ++ nextId :: l₂).length < fuel) :
    ∃ l₀ b span, prev :: l₁ = l₀ ++ [b] ∧ spans b = some span ∧
      PageCache.unlinkNext nextId c spans fuel prev =
        some (Function.update spans b (some { span with next := c }), true) := by
  induction l₁ generalizing prev fuel with
  | nil =>
    obtain ⟨fuel, rfl⟩ := Nat.exists_eq_add_of_lt hfuel
    obtain ⟨span, hspan⟩ := Option.ne_none_iff_exists'.mp (hobjects prev List.mem_cons_self)
    obtain ⟨hlink, hne, -⟩ := hchain.2.2
    rw [SpanInv.nextOf_eq hspan] at hlink
    refine ⟨[], prev, span, rfl, hspan, ?_⟩
    simp [PageCache.unlinkNext, hspan, hlink, hne]
  | cons b l₁ ih =>
    obtain ⟨fuel, rfl⟩ := Nat.exists_eq_add_of_lt hfuel
    obtain ⟨span, hspan⟩ := Option.ne_none_iff_exists'.mp (hobjects prev List.mem_cons_self)
    obtain ⟨hlink, hb, hrest⟩ := hchain.2.2
    rw [SpanInv.nextOf_eq hspan] at hlink
    -- the search goes on: an id is in a list only once
    have hbne : b ≠ nextId := by
      rintro rfl
      have hnodup := hchain.nodup
      simp at hnodup
    have htail : Chain (nextOf spans) 0 b (b :: l₁ ++ nextId :: l₂) := ⟨rfl, hb, hrest⟩
    have hless : (l₁ ++ nextId :: l₂).length < (b :: l₁ ++ nextId :: l₂).length + fuel := by
      rw [List.cons_append, List.length_cons]
      omega
    obtain ⟨l₀, b', span', heq, hspan', hrec⟩ := ih htail
      (fun i hi => hobjects i (List.mem_cons_of_mem _ hi)) hless
    refine ⟨prev :: l₀, b', span', by rw [heq, List.cons_append], hspan', ?_⟩
    simp only [PageCache.unlinkNext, hspan, hlink, hb, hbne, if_false]
    exact hrec

end Search

/-! ## §3 Taking a span -/

namespace SpanInv

variable {p p' : PageCache} {live : List (Addr × Nat)} {owner : Nat → Option SpanPlace}

/-- The head of a list that is not empty, and the list behind it. -/
theorem head_owner (h : SpanInv p live owner) {k : Nat} (hne : p.head k ≠ 0) :
    owner (p.head k) = some (.free k) ∧
      ∃ l, Chain (nextOf p.spans) 0 (nextOf p.spans (p.head k)) l ∧
        ∀ i, i ∈ l ↔ owner i = some (.free k) ∧ i ≠ p.head k := by
  obtain ⟨l, hchain, howned⟩ := h.lists k
  obtain ⟨rest, rfl, hrest⟩ := hchain.exists_cons hne
  refine ⟨(howned _).mp List.mem_cons_self, rest, hrest, fun i => ?_⟩
  have hnodup := List.nodup_cons.mp hchain.nodup
  rw [← howned i, List.mem_cons]
  constructor
  · intro hi
    refine ⟨.inr hi, ?_⟩
    rintro rfl
    exact hnodup.1 hi
  · rintro ⟨rfl | hi, hhead⟩
    · exact absurd rfl hhead
    · exact hi

/-- The head leaves its list. -/
theorem unlistHead (h : SpanInv p live owner) {k : Nat} {span : Span} (hne : p.head k ≠ 0)
    (hspan : p.spans (p.head k) = some span) (hspans : p'.spans = p.spans)
    (hmap : p'.spanMap_ = p.spanMap_) (hmade : p'.made = p.made)
    (hmmapped : p'.mmapped = p.mmapped)
    (hheads : p'.head k = span.next ∧ ∀ j, j ≠ k → p'.head j = p.head j) :
    SpanInv p' live (Function.update owner (p.head k) (some .held)) := by
  obtain ⟨howner, l, hchain, hl⟩ := h.head_owner hne
  refine h.unlist (fun id => by rw [hspans]) hmap hmade hmmapped howner
    (fun i _ => by rw [hspans]) hheads.2 ?_ hl
  rw [hspans, hheads.1, ← nextOf_eq hspan]
  exact hchain

/-- **The rest of a span that is held goes to the list of its page count.** -/
theorem splitSpan (h : SpanInv p live owner) {id n : Nat} {span : Span}
    (hid : owner id = some .held) (hspan : p.spans id = some span) (hn : 0 < n)
    (hlt : n < span.numPages) :
    SpanInv (p.splitSpan id span n) live
      (Function.update (Function.update owner (p.made + 1) (some .held)) (p.made + 1)
        (some (.free (span.numPages - n)))) := by
  have hname := h.names id (by simp [hid])
  have hne : id ≠ p.made + 1 := by omega
  -- the new object is held before it is put on its list
  let q : PageCache := { p.splitSpan id span n with freeSpans_ := p.freeSpans_ }
  have hspanid : q.spans id = some { span with numPages := n } := Function.update_self _ _ _
  have hrest : q.spans (p.made + 1) = some
      ⟨addrBehind span.pageAddr n, span.numPages - n, p.head (span.numPages - n)⟩ := by
    refine (Function.update_of_ne hne.symm _ _).trans ?_
    exact Function.update_self _ _ _
  -- the first part ends before the span does
  have hbehind : addrBehind span.pageAddr n = span.pageAddr + n * PAGE_SIZE := by
    have hle := Nat.add_le_add_left (Nat.mul_le_mul_right PAGE_SIZE (Nat.le_of_lt hlt))
      span.pageAddr
    exact addrBehind_of_lt (Nat.lt_of_le_of_lt hle (h.end_lt hspan))
  have hq : SpanInv q live (Function.update owner (p.made + 1) (some .held)) := by
    refine h.splitHeld hid hspan hn hlt rfl rfl rfl rfl hspanid ⟨rfl, rfl⟩ hrest
      ⟨hbehind, rfl⟩ ?_
    intro i hi hi'
    exact (Function.update_of_ne hi _ _).trans (Function.update_of_ne hi' _ _)
  have hheads := head_insert q (p.splitSpan id span n) rfl
  refine hq.push ?_ ?_ ?_ ?_ (Function.update_self _ _ _) hrest ?_ ?_ hheads.2 hheads.1
  · exact fun _ => rfl
  · rfl
  · rfl
  · rfl
  · exact fun _ _ => rfl
  · exact nextOf_eq hrest

end SpanInv

/-- Between the calls no object is held. -/
def SpanIdle (p : PageCache) (live : List (Addr × Nat)) : Prop :=
  ∃ owner, SpanInv p live owner ∧ ∀ i, owner i ≠ some .held

namespace SpanIdle

variable {p p' : PageCache} {live : List (Addr × Nat)}

/-- Reusing the head of a list; it faults only if the head is null. -/
theorem takeFreeSpan (h : SpanIdle p live) {key id n : Nat}
    (hkey : p.freeSpans_.lookup key = some id) (hn : 0 < n) (hle : n ≤ key) (hid : id ≠ 0) :
    ∃ q ptr, p.takeFreeSpan key id n = some (q, ptr) ∧ SpanIdle q ((ptr, n) :: live) ∧
      q.mmapped = p.mmapped := by
  obtain ⟨owner, hinv, hidle⟩ := h
  have hhead : p.head key = id := by
    rw [PageCache.head, hkey]
    rfl
  subst hhead
  obtain ⟨howner, -⟩ := hinv.head_owner hid
  obtain ⟨span, hspan⟩ := hinv.object howner
  have hpages := hinv.counts _ _ _ howner hspan
  -- the list without its head
  let q : PageCache := { p with
    freeSpans_ := if span.next ≠ 0 then p.freeSpans_.insert key span.next
      else p.freeSpans_.erase key }
  have hq : SpanInv q live (Function.update owner (p.head key) (some .held)) := by
    refine hinv.unlistHead hid hspan rfl rfl rfl rfl ?_
    rcases Nat.decEq span.next 0 with hnext | hnext
    · exact head_insert _ _ (if_pos hnext)
    · rw [hnext]
      exact head_erase _ _ (if_neg (not_not_intro hnext))
  have htake : p.takeFreeSpan key (p.head key) n = some
      ({ (if span.numPages > n then q.splitSpan (p.head key) span n else q) with
        spanMap_ := Function.update
          (if span.numPages > n then q.splitSpan (p.head key) span n else q).spanMap_
          span.pageAddr (some (p.head key)) }, span.pageAddr) := by
    rw [PageCache.takeFreeSpan, if_neg hid, hspan]
    rfl
  rw [htake]
  refine ⟨_, _, rfl, ?_, ?_⟩
  · rcases Nat.lt_or_ge n span.numPages with hlt | hge
    · rw [if_pos hlt]
      have hsplit := hq.splitSpan (Function.update_self _ _ _) hspan hn hlt
      have hname := hinv.names _ (by rw [howner]; simp)
      have hne : p.head key ≠ q.made + 1 := Nat.ne_of_lt (Nat.lt_succ_of_le hname.2)
      have hheld : Function.update (Function.update (Function.update owner (p.head key)
          (some SpanPlace.held)) (q.made + 1) (some .held)) (q.made + 1)
          (some (.free (span.numPages - n))) (p.head key) = some .held := by
        rw [Function.update_of_ne hne, Function.update_of_ne hne, Function.update_self]
      have hspan' : (q.splitSpan (p.head key) span n).spans (p.head key) =
          some { span with numPages := n } := Function.update_self _ _ _
      refine ⟨_, hsplit.register hheld hspan', fun i => ?_⟩
      simp only [Function.update_apply]
      split
      · simp
      · split
        · simp
        · exact hidle i
    · rw [if_neg (Nat.not_lt.mpr hge)]
      have hn' : span.numPages = n := by omega
      have hregister := hq.register (Function.update_self _ _ _) hspan
      rw [hn'] at hregister
      refine ⟨_, hregister, fun i => ?_⟩
      simp only [Function.update_apply]
      split
      · simp
      · exact hidle i
  · split <;> rfl

/-- Recording a region obtained from the system, if its bytes are those of `n` pages. -/
theorem recordSpan (h : SpanIdle p live) {memory n : Nat} (hn : 0 < n) (hfit : n < 2 ^ 52)
    (hfresh : ∀ r ∈ regions p.mmapped, Apart memory (sizeOfPages n) r.1 r.2)
    (hend : memory + sizeOfPages n < 2 ^ 64) :
    SpanIdle (p.recordSpan memory n) ((memory, n) :: live) := by
  obtain ⟨owner, hinv, hidle⟩ := h
  have hsize := sizeOfPages_of_lt hfit
  rw [hsize] at hfresh hend
  let q : PageCache := { p.recordSpan memory n with spanMap_ := p.spanMap_ }
  have hspan : q.spans (p.made + 1) = some ⟨memory, n, 0⟩ := Function.update_self _ _ _
  have hmapped : q.mmapped = (memory, n) :: p.mmapped := by
    have hpages : sizeOfPages n / PAGE_SIZE = n := by
      rw [hsize, Nat.mul_div_cancel _ (by decide)]
    exact congrArg (fun k => (memory, k) :: p.mmapped) hpages
  have hq : SpanInv q live (Function.update owner (p.made + 1) (some .held)) :=
    hinv.adopt hn hfresh hend rfl rfl rfl hmapped hspan
      (fun i hi => Function.update_of_ne hi _ _)
  refine ⟨_, hq.register (Function.update_self _ _ _) hspan, fun i => ?_⟩
  simp only [Function.update_apply]
  split
  · simp
  · exact hidle i

end SpanIdle

/-! ## §4 Merging -/

namespace SpanInv

variable {p p' : PageCache} {live : List (Addr × Nat)} {owner : Nat → Option SpanPlace}

/-- The keys change, but no list does. -/
theorem rekey (h : SpanInv p live owner) (hspans : p'.spans = p.spans)
    (hmap : p'.spanMap_ = p.spanMap_) (hmade : p'.made = p.made)
    (hmmapped : p'.mmapped = p.mmapped) (hhead : p'.head = p.head) : SpanInv p' live owner := by
  refine h.relink (fun id => by rw [hspans]) hmap hmade hmmapped (fun _ => Iff.rfl)
    (fun _ => Iff.rfl) h.counts ?_
  rw [hspans, hhead]
  exact h.lists

/-- A list has at most as many spans as were made. -/
theorem length_le_made (h : SpanInv p live owner) {k : Nat} {l : List Nat}
    (hchain : Chain (nextOf p.spans) 0 (p.head k) l) : l.length ≤ p.made := by
  have hsub : l ⊆ List.range' 1 p.made := by
    intro i hi
    have howner := (h.lists.mem_iff hchain i).mp hi
    have hname := h.names i (by simp [howner])
    rw [List.mem_range'_1]
    omega
  have hle := (List.subperm_of_subset hchain.nodup hsub).length_le
  rwa [List.length_range'] at hle

/-- A span behind the head leaves its list, and the search finds it. -/
theorem unlinkNext (h : SpanInv p live owner) {k nextId : Nat} {nextSpan : Span}
    (hnext : owner nextId = some (.free k)) (hnextSpan : p.spans nextId = some nextSpan)
    (hne : p.head k ≠ nextId) :
    ∃ spans, PageCache.unlinkNext nextId nextSpan.next p.spans (p.made + 1) (p.head k) =
        some (spans, true) ∧
      SpanInv { p with spans := spans } live (Function.update owner nextId (some .held)) ∧
      spans nextId = some nextSpan ∧
      ∀ i, owner i = some .held → spans i = p.spans i := by
  obtain ⟨l, hchain, howned⟩ := h.lists k
  have hmem := (howned nextId).mpr hnext
  have hhead : p.head k ≠ 0 := by
    intro hzero
    rw [hzero] at hchain
    rw [hchain.eq_nil] at hmem
    cases hmem
  obtain ⟨rest, rfl, -⟩ := hchain.exists_cons hhead
  -- the list is `l₁`, then the span, then `l₂`, behind a head that is another span
  obtain ⟨l₁, l₂, rfl⟩ := List.append_of_mem
    ((List.mem_cons.mp hmem).resolve_left (fun heq => hne heq.symm))
  rw [← List.cons_append] at hchain howned
  have hlength := h.length_le_made hchain
  rw [List.cons_append, List.length_cons] at hlength
  have hobjects : ∀ i ∈ p.head k :: l₁ ++ nextId :: l₂, p.spans i ≠ none := by
    intro i hi heq
    rw [howned i, (h.objects i).mp heq] at hi
    cases hi
  -- a list has at most `made` members, so the search does not end early
  have hfuel : (l₁ ++ nextId :: l₂).length < p.made + 1 := by omega
  obtain ⟨l₀, b, span, hsplit, hspan, hsearch⟩ :=
    unlinkNext_of_mem (c := nextSpan.next) hchain hobjects hfuel
  have hafter : Chain (nextOf p.spans) 0 nextSpan.next l₂ := by
    have hsuffix := hchain.suffix.2.2
    rwa [nextOf_eq hnextSpan] at hsuffix
  have hnodup := hchain.nodup
  rw [hsplit] at hchain hnodup howned
  have hb : owner b = some (.free k) := by
    rw [← howned b]
    simp
  have hbnext : b ≠ nextId := by
    rintro rfl
    simp [List.nodup_append] at hnodup
  -- the cell `b` before the span now links behind it
  have hnew : Chain (nextOf (Function.update p.spans b (some { span with next := nextSpan.next })))
      0 (p.head k) (l₀ ++ [b] ++ l₂) := by
    rw [nextOf_update]
    rw [List.append_assoc, List.singleton_append] at hchain
    refine hchain.splice hafter ?_
    have hsplit' := hchain.not_mem_split.2
    exact fun hbl => hsplit' (List.mem_cons_of_mem _ hbl)
  let q : PageCache := { p with
    spans := Function.update p.spans b (some { span with next := nextSpan.next }) }
  have hshape : SameShape p q := by
    intro i
    rcases Nat.decEq i b with hi | rfl
    · simp only [q, Function.update_of_ne hi]
    · simp only [q, Function.update_self, hspan, Option.map_some]
  have hnew' : Chain (nextOf q.spans) 0 (q.head k) (l₀ ++ [b] ++ l₂) := hnew
  refine ⟨_, hsearch, h.unlist hshape rfl rfl rfl hnext ?_ (fun _ _ => rfl) hnew' ?_, ?_, ?_⟩
  · intro i hi
    have hib : i ≠ b := by
      rintro rfl
      exact hi hb
    rw [nextOf_update, Function.update_of_ne hib]
  · intro i
    rw [← howned i]
    -- the span was in the list once, so it is gone
    have hout : nextId ∉ l₀ ++ [b] ++ l₂ := by
      rw [List.nodup_append] at hnodup
      rw [List.mem_append, not_or]
      refine ⟨fun hi => hnodup.2.2 _ hi _ List.mem_cons_self rfl, ?_⟩
      exact (List.nodup_cons.mp hnodup.2.1).1
    constructor
    · intro hi
      refine ⟨?_, ?_⟩
      · rw [List.mem_append] at hi ⊢
        exact hi.imp_right (List.mem_cons_of_mem _)
      · rintro rfl
        exact hout hi
    · rintro ⟨hi, hinext⟩
      rw [List.mem_append, List.mem_cons] at hi
      rw [List.mem_append]
      rcases hi with hi | rfl | hi
      · exact .inl hi
      · exact absurd rfl hinext
      · exact .inr hi
  · rw [Function.update_of_ne hbnext.symm, hnextSpan]
  · intro i hi
    apply Function.update_of_ne
    rintro rfl
    rw [hb] at hi
    cases hi

/-- The pages of a span and of the one behind it end in the address space, so their number does
    not wrap. -/
theorem sum_pages (h : SpanInv p live owner) {nextId : Nat} {span nextSpan : Span}
    (hnextSpan : p.spans nextId = some nextSpan)
    (haddr : nextSpan.pageAddr = span.pageAddr + span.numPages * PAGE_SIZE) :
    sizeT (span.numPages + nextSpan.numPages) = span.numPages + nextSpan.numPages := by
  have hend := h.end_lt hnextSpan
  rw [haddr, Nat.add_assoc, ← Nat.add_mul] at hend
  exact Nat.mod_eq_of_lt (Nat.lt_trans (numPages_lt hend) (by decide))

/-- The span takes the one behind it, which was taken off its list. -/
theorem absorbNext (h : SpanInv p live owner) {id nextId : Nat} {span nextSpan : Span}
    (hid : owner id = some .held) (hspan : p.spans id = some span)
    (hnext : owner nextId = some .held) (hnextSpan : p.spans nextId = some nextSpan)
    (hne : id ≠ nextId)
    (haddr : nextSpan.pageAddr = span.pageAddr + span.numPages * PAGE_SIZE) :
    ∃ q, p.absorbNext id nextSpan.pageAddr nextId nextSpan = some q ∧
      SpanInv q live (Function.update owner nextId none) ∧
      q.spans id = some { span with numPages := span.numPages + nextSpan.numPages } ∧
      q.freeSpans_ = p.freeSpans_ ∧ q.mmapped = p.mmapped := by
  rw [PageCache.absorbNext, hspan, Option.map_some, h.sum_pages hnextSpan haddr]
  refine ⟨_, rfl, ?_, ?_, rfl, rfl⟩
  · refine h.absorb hid hspan hnext hnextSpan haddr rfl rfl rfl rfl hne
      ((Function.update_of_ne hne _ _).trans (Function.update_self _ _ _)) ⟨rfl, rfl⟩
      (Function.update_self _ _ _) ?_
    intro i hi hi'
    exact (Function.update_of_ne hi' _ _).trans (Function.update_of_ne hi _ _)
  · exact (Function.update_of_ne hne _ _).trans (Function.update_self _ _ _)

end SpanInv

/-- What the attempt to merge leaves: only the span `id` is held, and the key of the page count
    `k` of the span behind it is set to `v`. -/
structure Merged (p q : PageCache) (live : List (Addr × Nat)) (id nextId : Nat)
    (span nextSpan : Span) : Prop where
  inv : ∃ owner, SpanInv q live owner ∧ owner id = some .held ∧ ∀ i, i ≠ id → owner i ≠ some .held
  mmapped : q.mmapped = p.mmapped
  keys : ∃ v span', q.spans id = some span' ∧
    (∀ j, q.freeSpans_.lookup j =
      if j = nextSpan.numPages then some v else p.freeSpans_.lookup j) ∧
    (p.head nextSpan.numPages = nextId ∧ v = nextSpan.next ∧
        span'.numPages = span.numPages + nextSpan.numPages ∨
      p.head nextSpan.numPages ≠ nextId ∧ v = p.head nextSpan.numPages ∧
        (v = 0 → span'.numPages = span.numPages))

namespace SpanInv

variable {p p' : PageCache} {live : List (Addr × Nat)} {owner : Nat → Option SpanPlace}

theorem lookup_insert_eq {m : AList (fun _ : Nat => Nat)} {k v : Nat} (j : Nat) :
    (m.insert k v).lookup j = if j = k then some v else m.lookup j := by
  split
  · rename_i heq
    rw [heq, AList.lookup_insert]
  · rename_i hne
    rw [AList.lookup_insert_ne hne]

/-- **Merging with the span behind.** It is on the list of its page count, at the head or behind
    it, or on none. -/
theorem mergeNext (h : SpanInv p live owner) {id nextId : Nat} {span nextSpan : Span}
    (hid : owner id = some .held) (honly : ∀ i, i ≠ id → owner i ≠ some .held)
    (hspan : p.spans id = some span) (hnextSpan : p.spans nextId = some nextSpan)
    (haddr : nextSpan.pageAddr = span.pageAddr + span.numPages * PAGE_SIZE) :
    ∃ q, p.mergeNext id nextSpan.pageAddr nextId = some q ∧
      Merged p q live id nextId span nextSpan := by
  obtain ⟨place, hplace⟩ := h.place hnextSpan
  have hname := (h.names nextId (by simp [hplace])).1
  have hpos := h.pages_pos hspan
  have hne : id ≠ nextId := by
    rintro rfl
    rw [hspan, Option.some.injEq] at hnextSpan
    subst hnextSpan
    have hstart : 0 < span.numPages * PAGE_SIZE := Nat.mul_pos hpos (by decide)
    exact absurd haddr (Nat.ne_of_lt (Nat.lt_add_of_pos_right hstart))
  -- after the span behind was taken off its list, only the merged one is held
  have hdone : ∀ i, i ≠ id →
      Function.update (Function.update owner nextId (some .held)) nextId none i ≠ some .held := by
    intro i hi
    rw [Function.update_idem, Function.update_apply]
    split
    · simp
    · exact honly i hi
  have hidheld : Function.update owner nextId (some .held) id = some .held := by
    rw [Function.update_of_ne hne, hid]
  have hidheld' :
      Function.update (Function.update owner nextId (some .held)) nextId none id = some .held := by
    rw [Function.update_of_ne hne, hidheld]
  let k := nextSpan.numPages
  rw [PageCache.mergeNext, hnextSpan, Option.bind_some]
  rcases Nat.decEq (p.head k) nextId with hhead | hhead
  · -- the keys after `freeSpans_[k]`
    let p₁ : PageCache := { p with freeSpans_ := p.freeSpans_.insert k (p.head k) }
    have hheads := head_insert p p₁ rfl
    have hp₁ : SpanInv p₁ live owner := by
      refine h.rekey rfl rfl rfl rfl (funext fun j => ?_)
      rcases Nat.decEq j k with hj | rfl
      · exact hheads.2 j hj
      · exact hheads.1
    have hkeys : ∀ j, p₁.freeSpans_.lookup j =
        if j = k then some (p.head k) else p.freeSpans_.lookup j := lookup_insert_eq
    simp only [k] at hhead
    simp only [hhead, if_false]
    split
    · rename_i hlist
      rcases Classical.em (owner nextId = some (.free k)) with hfree | hfree
      · obtain ⟨spans, hsearch, hinv, hnextSpan', hsame⟩ := hp₁.unlinkNext hfree hnextSpan
          (by rw [hheads.1]; exact hhead)
        rw [hheads.1] at hsearch
        obtain ⟨q, hq, hqinv, hqspan, hqkeys, hqmmapped⟩ := hinv.absorbNext hidheld
          ((hsame id hid).trans hspan) (Function.update_self _ _ _) hnextSpan' hne haddr
        rw [show PageCache.unlinkNext nextId nextSpan.next p.spans (p.made + 1)
          (p.head nextSpan.numPages) = some (spans, true) from hsearch]
        refine ⟨q, hq, ⟨_, hqinv, hidheld', hdone⟩, hqmmapped, _, _, hqspan, ?_,
          .inr ⟨hhead, rfl, fun hzero => absurd hzero hlist⟩⟩
        rw [hqkeys]
        exact hkeys
      · have hsearch : PageCache.unlinkNext nextId nextSpan.next p.spans (p.made + 1)
            (p.head nextSpan.numPages) = some (p.spans, false) := by
          obtain ⟨l, hchain, howned⟩ := h.lists k
          have hlength := h.length_le_made hchain
          obtain ⟨rest, rfl, -⟩ := hchain.exists_cons hlist
          rw [List.length_cons] at hlength
          refine unlinkNext_of_not_mem hchain ?_ (by omega) ?_
          · intro i hi heq
            rw [howned i, (h.objects i).mp heq] at hi
            cases hi
          · intro hmem
            exact hfree ((howned nextId).mp (List.mem_cons_of_mem _ hmem))
        rw [hsearch]
        refine ⟨p₁, rfl, ⟨_, hp₁, hid, honly⟩, rfl, _, _, hspan, hkeys,
          .inr ⟨hhead, rfl, fun _ => rfl⟩⟩
    · refine ⟨p₁, rfl, ⟨_, hp₁, hid, honly⟩, rfl, _, _, hspan, hkeys,
        .inr ⟨hhead, rfl, fun _ => rfl⟩⟩
  · have hhead' : p.head nextSpan.numPages = nextId := hhead
    have hnull : p.head k ≠ 0 := by omega
    simp only [hhead', if_true]
    let p₁ : PageCache := { p with
      freeSpans_ := (p.freeSpans_.insert k nextId).insert k nextSpan.next }
    have hheads : p₁.head k = nextSpan.next ∧ ∀ j, j ≠ k → p₁.head j = p.head j := by
      have hfirst := head_insert p { p with freeSpans_ := p.freeSpans_.insert k nextId } rfl
      have hsecond := head_insert { p with freeSpans_ := p.freeSpans_.insert k nextId } p₁ rfl
      exact ⟨hsecond.1, fun j hj => (hsecond.2 j hj).trans (hfirst.2 j hj)⟩
    have hinv : SpanInv p₁ live (Function.update owner nextId (some .held)) := by
      have hspan' : p.spans (p.head k) = some nextSpan := by
        rw [hhead]
        exact hnextSpan
      have hunlist : SpanInv p₁ live (Function.update owner (p.head k) (some .held)) :=
        h.unlistHead hnull hspan' rfl rfl rfl rfl hheads
      rwa [hhead] at hunlist
    obtain ⟨q, hq, hqinv, hqspan, hqkeys, hqmmapped⟩ := hinv.absorbNext hidheld hspan
      (Function.update_self _ _ _) hnextSpan hne haddr
    refine ⟨q, hq, ⟨_, hqinv, hidheld', hdone⟩, hqmmapped, _, _, hqspan, ?_,
      .inl ⟨hhead', rfl, rfl⟩⟩
    intro j
    rw [hqkeys, lookup_insert_eq]
    split
    · rfl
    · rename_i hj
      rw [lookup_insert_eq, if_neg hj]

/-- The span that is held goes to the list of its page count. -/
theorem pushSpan (h : SpanInv p live owner) {id : Nat} {span : Span}
    (hid : owner id = some .held) (honly : ∀ i, i ≠ id → owner i ≠ some .held)
    (hspan : p.spans id = some span) :
    ∃ q, p.pushSpan id = some q ∧ SpanIdle q live ∧ q.mmapped = p.mmapped ∧
      q.freeSpans_ = p.freeSpans_.insert span.numPages id := by
  rw [PageCache.pushSpan, hspan, Option.map_some]
  refine ⟨_, rfl, ?_, rfl, rfl⟩
  let q : PageCache := { p with
    spans := Function.update p.spans id (some { span with next := p.head span.numPages })
    freeSpans_ := p.freeSpans_.insert span.numPages id }
  have hheads := head_insert p q rfl
  have hshape : SameShape p q := by
    intro i
    rcases Nat.decEq i id with hi | rfl
    · simp only [q, Function.update_of_ne hi]
    · simp only [q, Function.update_self, hspan, Option.map_some]
  have hnext : nextOf q.spans = Function.update (nextOf p.spans) id (p.head span.numPages) :=
    nextOf_update _ _ _
  refine ⟨_, h.push hshape rfl rfl rfl hid hspan ?_ ?_ hheads.2 hheads.1, ?_⟩
  · intro i hi
    rw [hnext, Function.update_of_ne hi]
  · rw [hnext, Function.update_self]
  · intro i
    rw [Function.update_apply]
    split
    · simp
    · rename_i hi
      exact honly i hi

end SpanInv

/-! ## §5 The keys of the free lists -/

/-- Every key of `freeSpans_` has a list that is not empty. -/
def HeadsNonNull (p : PageCache) : Prop := ∀ k v, p.freeSpans_.lookup k = some v → v ≠ 0

/-- The list that `deallocateSpan` looks up for the span registered behind the freed one, if
    there is such a span, holds another span; or it is empty and the freed span goes to it. -/
def PageCache.mergeKeeps (pageCache : PageCache) (ptr numPages : Nat) : Bool :=
  match pageCache.spanMap_ (addrBehind ptr numPages) with
  | none => true
  | some nextId =>
    match pageCache.spans nextId with
    | none => true
    | some nextSpan =>
      if pageCache.head nextSpan.numPages = 0 then decide (nextSpan.numPages = numPages)
      else decide (pageCache.head nextSpan.numPages ≠ nextId ∨ nextSpan.next ≠ 0)

theorem HeadsNonNull.insert {p q : PageCache} {k v : Nat} (h : HeadsNonNull p) (hv : v ≠ 0)
    (hq : q.freeSpans_ = p.freeSpans_.insert k v) : HeadsNonNull q := by
  intro j w hw
  rw [hq, SpanInv.lookup_insert_eq] at hw
  split at hw
  · rw [Option.some.injEq] at hw
    exact hw ▸ hv
  · exact h j w hw

theorem HeadsNonNull.erase {p q : PageCache} {k : Nat} (h : HeadsNonNull p)
    (hq : q.freeSpans_ = p.freeSpans_.erase k) : HeadsNonNull q := by
  intro j w hw
  rw [hq] at hw
  rcases Nat.decEq j k with hj | rfl
  · rw [AList.lookup_erase_ne hj] at hw
    exact h j w hw
  · rw [AList.lookup_erase] at hw
    cases hw

/-- `allocateSpan` erases a key whose list becomes empty. -/
theorem HeadsNonNull.takeFreeSpan {p q : PageCache} {key id n : Nat} {ptr : Addr}
    (h : HeadsNonNull p) (hq : p.takeFreeSpan key id n = some (q, ptr)) : HeadsNonNull q := by
  rw [PageCache.takeFreeSpan] at hq
  split at hq
  · cases hq
  · obtain ⟨span, -, heq⟩ := Option.map_eq_some_iff.mp hq
    rw [Prod.mk.injEq] at heq
    let p₁ : PageCache := { p with
      freeSpans_ := if span.next ≠ 0 then p.freeSpans_.insert key span.next
        else p.freeSpans_.erase key }
    have hp₁ : HeadsNonNull p₁ := by
      rcases Nat.decEq span.next 0 with hnext | hnext
      · exact h.insert hnext (if_pos hnext)
      · exact h.erase (if_neg (not_not_intro hnext))
    have hp₂ : HeadsNonNull (if span.numPages > n then p₁.splitSpan id span n else p₁) := by
      split
      · exact hp₁.insert (Nat.succ_ne_zero _) rfl
      · exact hp₁
    rw [← heq.1]
    exact hp₂

/-! ## §6 The calls -/

namespace SpanIdle

variable {p : PageCache} {live : List (Addr × Nat)}

/-- The pages of a span on a free list are fewer than `2 ^ 52`. -/
theorem key_lt (h : SpanIdle p live) {key id : Nat}
    (hkey : p.freeSpans_.lookup key = some id) (hid : id ≠ 0) : key < 2 ^ 52 := by
  obtain ⟨owner, hinv, -⟩ := h
  have hhead : p.head key = id := by
    rw [PageCache.head, hkey]
    rfl
  subst hhead
  obtain ⟨howner, -⟩ := hinv.head_owner hid
  obtain ⟨span, hspan⟩ := hinv.object howner
  rw [← hinv.counts _ _ _ howner hspan]
  exact numPages_lt (hinv.end_lt hspan)

/-- **A call of `allocateSpan`** fails on a null head, or it hands out `n` pages of a free span,
    or it records what the system returns, or the system has no memory. -/
theorem allocateSpan (h : SpanIdle p live) {n : Nat} (mmap : Option Addr) (mem : Words)
    (hn : 0 < n) :
    (∃ k, lowerBound p.freeSpans_ n = some (k, 0) ∧
      PageCache.allocateSpan mem p n mmap = none) ∨
    (∃ q ptr, PageCache.allocateSpan mem p n mmap = some (mem, q, some ptr) ∧ n < 2 ^ 52 ∧
      SpanIdle q ((ptr, n) :: live) ∧ (HeadsNonNull p → HeadsNonNull q)) ∨
    (∃ mem' memory, mmap = some memory ∧
      PageCache.allocateSpan mem p n mmap = some (mem', p.recordSpan memory n, some memory)) ∨
    mmap = none ∧ PageCache.allocateSpan mem p n mmap = some (mem, p, none) := by
  rw [PageCache.allocateSpan]
  cases hbound : lowerBound p.freeSpans_ n with
  | some entry =>
    obtain ⟨key, id⟩ := entry
    obtain ⟨hle, hkey⟩ := lowerBound_eq_some hbound
    rcases Nat.decEq id 0 with hid | rfl
    · obtain ⟨q, ptr, htake, hidle, -⟩ := h.takeFreeSpan hkey hn hle hid
      refine .inr (.inl ⟨q, ptr, ?_, Nat.lt_of_le_of_lt hle (h.key_lt hkey hid), hidle,
        fun hheads => hheads.takeFreeSpan htake⟩)
      simp only [htake, Option.map_some]
    · refine .inl ⟨key, rfl, ?_⟩
      -- a key with a null head is taken like any other, and dereferenced
      simp [PageCache.takeFreeSpan]
  | none =>
    cases mmap with
    | none => exact .inr (.inr (.inr ⟨rfl, rfl⟩))
    | some memory => exact .inr (.inr (.inl ⟨_, memory, rfl, rfl⟩))

/-- **A call of `deallocateSpan`** on a live span returns; it leaves a null head exactly if it
    takes the last span off a list, or looks up an empty one. -/
theorem deallocateSpan (h : SpanIdle p live) {ptr n : Nat} (hlive : (ptr, n) ∈ live) :
    ∃ q, p.deallocateSpan ptr n = some q ∧ SpanIdle q (live.erase (ptr, n)) ∧
      (HeadsNonNull p → (HeadsNonNull q ↔ p.mergeKeeps ptr n = true)) := by
  obtain ⟨owner, hinv, hidle⟩ := h
  obtain ⟨id, span, hid, hspan, rfl, rfl⟩ := (hinv.handed _ _).mp hlive
  have hregistered := hinv.registered id span hid hspan
  have hback := hinv.takeBack hid hspan rfl rfl
  have hidpos : id ≠ 0 := by
    have hname := hinv.names id (by simp [hid])
    omega
  have honly : ∀ i, i ≠ id → Function.update owner id (some SpanPlace.held) i ≠ some .held := by
    intro i hi
    rw [Function.update_of_ne hi]
    exact hidle i
  have hbehind := addrBehind_of_lt (hinv.end_lt hspan)
  rw [PageCache.deallocateSpan, hregistered]
  simp only [PageCache.mergeKeeps, hbehind]
  cases hnext : p.spanMap_ (span.pageAddr + span.numPages * PAGE_SIZE) with
  | none =>
    -- nothing is registered behind the span, so no key is looked up
    obtain ⟨q, hq, hqidle, -, hkeys⟩ :=
      hback.pushSpan (Function.update_self _ _ _) honly hspan
    refine ⟨q, hq, hqidle, fun hheads => ?_⟩
    exact iff_of_true (hheads.insert hidpos hkeys) rfl
  | some nextId =>
    obtain ⟨nextSpan, hnextSpan, haddr⟩ := hinv.map _ _ hnext
    obtain ⟨q, hq, hmerged⟩ :=
      hback.mergeNext (Function.update_self _ _ _) honly hspan hnextSpan haddr
    obtain ⟨owner', hqinv, hqid, hqonly⟩ := hmerged.inv
    obtain ⟨v, span', hspan', hkeys, hv⟩ := hmerged.keys
    obtain ⟨q', hq', hqidle, -, hkeys'⟩ := hqinv.pushSpan hqid hqonly hspan'
    rw [haddr] at hq
    have hpos := hinv.pages_pos hspan
    refine ⟨q', ?_, hqidle, fun hheads => ?_⟩
    · simp only [hq, Option.bind_some, hq']
    · -- the key of the span behind is null unless the freed span goes to its list
      have hlookup : HeadsNonNull q' ↔ nextSpan.numPages = span'.numPages ∨ v ≠ 0 := by
        constructor
        · intro hnonnull
          rcases Nat.decEq nextSpan.numPages span'.numPages with hne | heq
          · refine .inr (hnonnull nextSpan.numPages v ?_)
            rw [hkeys', SpanInv.lookup_insert_eq, if_neg hne, hkeys, if_pos rfl]
          · exact .inl heq
        · intro hcases j w hw
          rw [hkeys', SpanInv.lookup_insert_eq] at hw
          split at hw
          · rw [Option.some.injEq] at hw
            exact hw ▸ hidpos
          · rename_i hj
            rw [hkeys] at hw
            split at hw
            · rename_i hjk
              rw [Option.some.injEq] at hw
              rcases hcases with heq | hv0
              · exact absurd (hjk.trans heq) hj
              · exact hw ▸ hv0
            · exact hheads j w hw
      rw [hlookup]
      have hnextpos : nextId ≠ 0 := by
        obtain ⟨place, hplace⟩ := hinv.place hnextSpan
        have hname := hinv.names nextId (by simp [hplace])
        omega
      simp only [hnextSpan]
      rcases hv with ⟨hhead, rfl, hpages⟩ | ⟨hhead, rfl, hpages⟩
      · -- the head of the list was taken, and the merged span goes to a list of more pages
        rw [if_neg (by rw [hhead]; exact hnextpos), decide_eq_true_eq, hhead]
        have hne : nextSpan.numPages ≠ span'.numPages := by omega
        simp [hne]
      · -- the list keeps its head, or it is empty and `operator[]` has made a null one
        rcases Nat.decEq (p.head nextSpan.numPages) 0 with hnull | hnull
        · rw [if_neg hnull, decide_eq_true_eq]
          exact iff_of_true (.inr hnull) (.inl hhead)
        · rw [if_pos hnull, decide_eq_true_eq, hpages hnull]
          simp [hnull]

end SpanIdle

/-! ## §7 Runs -/

/-- The span `id` is on the free list of `k` pages. -/
def OnList (p : PageCache) (k id : Nat) : Prop :=
  ∃ l, Chain (nextOf p.spans) 0 (p.head k) l ∧ id ∈ l

/-- The position `x` is in the span of `n` pages at `ptr`. -/
def InPages (x ptr n : Nat) : Prop := ptr ≤ x ∧ x < ptr + n * PAGE_SIZE

/-- The pages of two spans do not overlap. -/
def PagesApart (a m b n : Nat) : Prop := Apart a (m * PAGE_SIZE) b (n * PAGE_SIZE)

/-- The spans that are live and those on the lists, the lists and `spanMap_` agree. -/
structure SpansAgree (p : PageCache) (live : List (Addr × Nat)) : Prop where
  lists : ∀ k, ∃ l, Chain (nextOf p.spans) 0 (p.head k) l
  listed : ∀ k id, OnList p k id → ∃ span, p.spans id = some span ∧ span.numPages = k
  live_apart : live.Pairwise (fun r r' => PagesApart r.1 r.2 r'.1 r'.2)
  free_apart : ∀ k id j i span span', OnList p k id → OnList p j i → (k, id) ≠ (j, i) →
    p.spans id = some span → p.spans i = some span' →
      PagesApart span.pageAddr span.numPages span'.pageAddr span'.numPages
  live_free_apart : ∀ r ∈ live, ∀ k id span, OnList p k id → p.spans id = some span →
    PagesApart r.1 r.2 span.pageAddr span.numPages
  cover : ∀ x, ((∃ r ∈ live, InPages x r.1 r.2) ∨
      ∃ k id span, OnList p k id ∧ p.spans id = some span ∧
        InPages x span.pageAddr span.numPages) ↔
    ∃ r ∈ p.mmapped, InPages x r.1 r.2
  registered : ∀ ptr n, (ptr, n) ∈ live → ∃ id next, p.spanMap_ ptr = some id ∧
    p.spans id = some ⟨ptr, n, next⟩
  not_deleted : ∀ a id, p.spanMap_ a = some id → p.spans id ≠ none

/-- Objects in different places are apart. -/
theorem SpanInv.pages_apart {p : PageCache} {live : List (Addr × Nat)}
    {owner : Nat → Option SpanPlace} (h : SpanInv p live owner) {i j : Nat} {a b : Span}
    (hne : i ≠ j) (hi : p.spans i = some a) (hj : p.spans j = some b) :
    PagesApart a.pageAddr a.numPages b.pageAddr b.numPages :=
  h.tiling.apart i j _ _ _ _ hne (SpanInv.pieceOf_eq hi) (SpanInv.pieceOf_eq hj)

namespace SpanIdle

variable {p : PageCache} {live : List (Addr × Nat)}

theorem agree (h : SpanIdle p live) : SpansAgree p live := by
  obtain ⟨owner, hinv, hidle⟩ := h
  have hlisted : ∀ k id, OnList p k id ↔ owner id = some (.free k) := by
    intro k id
    constructor
    · rintro ⟨l, hchain, hid⟩
      exact (hinv.lists.mem_iff hchain id).mp hid
    · intro hid
      obtain ⟨l, hchain, howned⟩ := hinv.lists k
      exact ⟨l, hchain, (howned id).mpr hid⟩
  refine ⟨?_, ?_, ?_, ?_, ?_, ?_, ?_, ?_⟩
  · intro k
    obtain ⟨l, hchain, -⟩ := hinv.lists k
    exact ⟨l, hchain⟩
  · intro k id hid
    rw [hlisted] at hid
    obtain ⟨span, hspan⟩ := hinv.object hid
    exact ⟨span, hspan, hinv.counts id k span hid hspan⟩
  · refine List.Pairwise.imp_of_mem ?_ hinv.once
    intro r r' hr hr' hne
    obtain ⟨i, span, -, hspan, haddr, hcount⟩ := (hinv.handed r.1 r.2).mp hr
    obtain ⟨j, span', -, hspan', haddr', hcount'⟩ := (hinv.handed r'.1 r'.2).mp hr'
    rw [← haddr, ← hcount, ← haddr', ← hcount']
    refine hinv.pages_apart ?_ hspan hspan'
    rintro rfl
    rw [hspan, Option.some.injEq] at hspan'
    subst hspan'
    exact hne (Prod.ext (haddr.symm.trans haddr') (hcount.symm.trans hcount'))
  · intro k id j i span span' hid hi hne hspan hspan'
    rw [hlisted] at hid hi
    refine hinv.pages_apart ?_ hspan hspan'
    rintro rfl
    rw [hid, Option.some.injEq, SpanPlace.free.injEq] at hi
    exact hne (by rw [hi])
  · intro r hr k id span hid hspan
    rw [hlisted] at hid
    obtain ⟨i, span', hi, hspan', haddr, hcount⟩ := (hinv.handed r.1 r.2).mp hr
    rw [← haddr, ← hcount]
    refine hinv.pages_apart ?_ hspan' hspan
    rintro rfl
    rw [hid] at hi
    cases hi
  · intro x
    have hcover := hinv.tiling.cover x
    have hregions : (∃ r ∈ p.mmapped, InPages x r.1 r.2) ↔
        ∃ r ∈ regions p.mmapped, r.1 ≤ x ∧ x < r.1 + r.2 := by
      simp [regions, InPages]
    rw [hregions, ← hcover]
    constructor
    · rintro (⟨r, hr, hx⟩ | ⟨k, id, span, -, hspan, hx⟩)
      · obtain ⟨i, span, -, hspan, haddr, hcount⟩ := (hinv.handed r.1 r.2).mp hr
        rw [← haddr, ← hcount] at hx
        exact ⟨i, _, _, SpanInv.pieceOf_eq hspan, hx⟩
      · exact ⟨id, _, _, SpanInv.pieceOf_eq hspan, hx⟩
    · rintro ⟨i, a, m, hpiece, hx⟩
      obtain ⟨span, hspan, heq⟩ := Option.map_eq_some_iff.mp hpiece
      rw [Prod.mk.injEq] at heq
      obtain ⟨rfl, rfl⟩ := heq
      obtain ⟨place, hplace⟩ := hinv.place hspan
      -- an object is live or on a list, because no call is in progress
      cases place with
      | live =>
        exact .inl ⟨(span.pageAddr, span.numPages),
          (hinv.handed _ _).mpr ⟨i, span, hplace, hspan, rfl, rfl⟩, hx⟩
      | free k => exact .inr ⟨k, i, span, (hlisted k i).mpr hplace, hspan, hx⟩
      | held => exact absurd hplace (hidle i)
  · intro ptr n hmem
    obtain ⟨id, span, hid, hspan, rfl, rfl⟩ := (hinv.handed ptr n).mp hmem
    exact ⟨id, span.next, hinv.registered id span hid hspan, hspan⟩
  · intro a id hid
    obtain ⟨span, hspan, -⟩ := hinv.map a id hid
    simp [hspan]

/-- Before the first call. -/
theorem start : SpanIdle .new [] := by
  refine ⟨fun _ => none, ⟨?_, ?_, ?_, ?_, ?_, List.nodup_nil, ?_, ?_, ?_, ?_⟩, ?_⟩
  · exact fun _ => iff_of_true rfl rfl
  · exact fun _ hne => absurd rfl hne
  · exact fun k => ⟨[], rfl, by simp⟩
  · exact fun _ _ _ hfree => nomatch hfree
  · simp
  · exact fun _ _ hmap => nomatch hmap
  · exact fun _ _ hlive => nomatch hlive
  · constructor
    · exact fun _ _ _ hpiece => nomatch hpiece
    · exact fun _ _ _ _ _ _ _ hpiece => nomatch hpiece
    · simp [pieceOf, PageCache.new, regions]
  · simp [PageCache.new, regions]
  · simp

end SpanIdle

/-- A span of `2 ^ 52` pages or more does not end in the address space, so its pages are not all
    in the regions of the system. -/
theorem SpanIdle.not_agree_recordSpan {p : PageCache} {live : List (Addr × Nat)}
    (h : SpanIdle p live) {memory n : Nat} (hn : 2 ^ 52 ≤ n)
    (hend : memory + sizeOfPages n < 2 ^ 64) :
    ¬SpansAgree (p.recordSpan memory n) ((memory, n) :: live) := by
  intro hagree
  obtain ⟨owner, hinv, -⟩ := h
  have hin : InPages (2 ^ 64 - 1) memory n := by
    have hbytes : 2 ^ 64 ≤ n * PAGE_SIZE := by
      unfold PAGE_SIZE
      omega
    constructor <;> omega
  -- but every region ends before the last address
  obtain ⟨r, hr, -, hlast⟩ :=
    (hagree.cover (2 ^ 64 - 1)).mp (.inl ⟨(memory, n), List.mem_cons_self, hin⟩)
  rcases List.mem_cons.mp hr with rfl | hr
  · rw [sizeOfPages_div_mul] at hlast
    omega
  · have hspace := hinv.space _ (List.mem_map_of_mem hr)
    simp only at hspace
    omega

/-- The condition on a step: a request that the system grants is for fewer than `2 ^ 52` pages. -/
def pagesFit : SpanAct → Bool
  | .allocateSpan numPages mmap => mmap.isNone || decide (numPages < 2 ^ 52)
  | .deallocateSpan _ _ => true

/-- What a step does: it faults only on a null head, and the spans stay right exactly if the pages
    fit. -/
theorem spanMachine_step {s : SpanState} {a : SpanAct} (h : SpanIdle s.pageCache s.live)
    (he : spanMachine.enabled s a = true) :
    (∃ n mmap k, a = .allocateSpan n mmap ∧ spanMachine.step s a = none ∧
      lowerBound s.pageCache.freeSpans_ n = some (k, 0)) ∨
    ∃ t, spanMachine.step s a = some t ∧ (pagesFit a = true → SpanIdle t.pageCache t.live) ∧
      (SpansAgree t.pageCache t.live → pagesFit a = true) := by
  cases a with
  | allocateSpan n mmap =>
    simp only [spanMachine, Bool.and_eq_true, decide_eq_true_eq] at he
    obtain ⟨⟨hn, hmmap⟩, hspace⟩ := he
    rcases h.allocateSpan mmap s.mem hn with ⟨k, hbound, hnone⟩ | ⟨q, ptr, hsome, hlt, hidle, -⟩ |
      ⟨mem, memory, rfl, hsome⟩ | ⟨rfl, hsome⟩
    · refine .inl ⟨n, mmap, k, rfl, ?_, hbound⟩
      simp only [spanMachine, hnone, Option.map_none]
    · refine .inr ⟨⟨s.mem, q, (ptr, n) :: s.live⟩, ?_, fun _ => hidle, fun _ => ?_⟩
      · simp only [spanMachine, hsome, Option.map_some]
      · rw [pagesFit, decide_eq_true hlt, Bool.or_true]
    · refine .inr ⟨⟨mem, s.pageCache.recordSpan memory n, (memory, n) :: s.live⟩, ?_, ?_, ?_⟩
      · simp only [spanMachine, hsome, Option.map_some]
      · intro hfit
        simp only [pagesFit, Option.isNone_some, Bool.false_or, decide_eq_true_eq] at hfit
        simp only [inAddressSpace, decide_eq_true_eq] at hspace
        exact h.recordSpan hn hfit (apart_of_mmap hmmap) hspace
      · intro hagree
        simp only [inAddressSpace, decide_eq_true_eq] at hspace
        simp only [pagesFit, Option.isNone_some, Bool.false_or, decide_eq_true_eq]
        by_contra hlarge
        exact h.not_agree_recordSpan (Nat.le_of_not_lt hlarge) hspace hagree
    · refine .inr ⟨⟨s.mem, s.pageCache, s.live⟩, ?_, fun _ => h, fun _ => rfl⟩
      simp only [spanMachine, hsome, Option.map_some]
  | deallocateSpan ptr n =>
    simp only [spanMachine, List.contains_iff_mem] at he
    obtain ⟨q, hsome, hidle, -⟩ := h.deallocateSpan he
    refine .inr ⟨⟨s.mem, q, s.live.erase (ptr, n)⟩, ?_, fun _ => hidle, fun _ => rfl⟩
    simp only [spanMachine, hsome, Option.map_some]

/-- The invariant holds after every run whose pages fit. -/
theorem spanMachine_idle {mem : Words} {as : List SpanAct} {s : SpanState}
    (h : spanMachine.ReachesAlong (fun _ a => pagesFit a = true) (.start mem) as s) :
    SpanIdle s.pageCache s.live := by
  induction h with
  | refl => exact .start
  | snoc _ he hfit hs ih =>
    rcases spanMachine_step ih he with ⟨n, mmap, k, -, hnone, -⟩ | ⟨t, ht, hidle, -⟩
    · rw [hnone] at hs
      cases hs
    · rw [ht, Option.some.injEq] at hs
      exact hs ▸ hidle hfit

/-- **Spans are consistent as long as no granted request wraps.** After a run whose requests were
    refused or for fewer than `2 ^ 52` pages, live spans and free spans are apart and cover
    exactly the memory obtained from the system, the lists and `spanMap_` are right, a call of
    `allocateSpan` hands out `n` pages, and a call gets stuck only on a null list head. A step
    that does not meet the condition leaves spans that do not agree. -/
theorem pageCache_spans_consistent {mem : Words} {as : List SpanAct} {s : SpanState}
    (h : spanMachine.ReachesAlong (fun _ a => pagesFit a = true) (.start mem) as s) :
    SpansAgree s.pageCache s.live ∧
    (∀ n mmap mem' q ptr, spanMachine.enabled s (.allocateSpan n mmap) = true →
      pagesFit (.allocateSpan n mmap) = true →
      PageCache.allocateSpan s.mem s.pageCache n mmap = some (mem', q, some ptr) →
      (∃ id next, q.spanMap_ ptr = some id ∧ q.spans id = some ⟨ptr, n, next⟩) ∧
      (∀ r ∈ s.live, PagesApart ptr n r.1 r.2) ∧
      ∀ x, InPages x ptr n → ∃ r ∈ q.mmapped, InPages x r.1 r.2) ∧
    (∀ a, spanMachine.enabled s a = true → spanMachine.step s a = none →
      ∃ n mmap k, a = .allocateSpan n mmap ∧
        lowerBound s.pageCache.freeSpans_ n = some (k, 0)) ∧
    ∀ a t, spanMachine.enabled s a = true → spanMachine.step s a = some t →
      (SpansAgree t.pageCache t.live ↔ pagesFit a = true) := by
  have hidle := spanMachine_idle h
  refine ⟨hidle.agree, ?_, ?_, ?_⟩
  · intro n mmap mem' q ptr he hfit hcall
    -- the call is a step of the machine that hands out the span
    have hstep : spanMachine.step s (.allocateSpan n mmap) =
        some ⟨mem', q, (ptr, n) :: s.live⟩ := by
      simp only [spanMachine, hcall, Option.map_some]
    have hagree : SpansAgree q ((ptr, n) :: s.live) := by
      rcases spanMachine_step hidle he with ⟨n', mmap', k, -, hnone, -⟩ | ⟨t, ht, hidle', -⟩
      · rw [hnone] at hstep
        cases hstep
      · rw [hstep, Option.some.injEq] at ht
        subst ht
        exact (hidle' hfit).agree
    refine ⟨hagree.registered ptr n List.mem_cons_self, ?_, ?_⟩
    · intro r hr
      exact (List.pairwise_cons.mp hagree.live_apart).1 r hr
    · intro x hx
      exact (hagree.cover x).mp (.inl ⟨(ptr, n), List.mem_cons_self, hx⟩)
  · intro a he hnone
    rcases spanMachine_step hidle he with ⟨n, mmap, k, rfl, -, hbound⟩ | ⟨t, ht, -⟩
    · exact ⟨n, mmap, k, rfl, hbound⟩
    · rw [ht] at hnone
      cases hnone
  · intro a u he hs
    rcases spanMachine_step hidle he with ⟨n, mmap, k, -, hnone, -⟩ | ⟨t, ht, hidle', hfit⟩
    · rw [hnone] at hs
      cases hs
    · rw [ht, Option.some.injEq] at hs
      exact hs ▸ ⟨hfit, fun h' => (hidle' h').agree⟩

/-- A span is split, and its parts are merged again. -/
def splitMergeRun : List SpanAct :=
  [.allocateSpan 4 (some 65536), .deallocateSpan 65536 4, .allocateSpan 1 none,
    .allocateSpan 3 none, .deallocateSpan 69632 3, .deallocateSpan 65536 1, .allocateSpan 4 none]

theorem splitMergeRun_spans_consistent :
    ∃ s, spanMachine.ReachesAlong (fun _ a => pagesFit a = true) (.start (fun _ => 0))
        splitMergeRun s ∧ s.live = [(65536, 4)] ∧
      s.pageCache.mmapped = [(65536, 4)] ∧ SpansAgree s.pageCache s.live := by
  have hrun : (spanMachine.run (.start (fun _ => 0)) splitMergeRun).map
      (fun s => (s.live, s.pageCache.mmapped)) = some ([(65536, 4)], [(65536, 4)]) := by
    decide +kernel
  obtain ⟨s, hs, hstate⟩ := Option.map_eq_some_iff.mp hrun
  rw [Prod.mk.injEq] at hstate
  have hreach := (Machine.reaches_of_run hs).along (P := fun a => pagesFit a = true) (by decide)
  exact ⟨s, hreach, hstate.1, hstate.2, (pageCache_spans_consistent hreach).1⟩

/-- One request, whose byte count wraps around to one page. -/
def hugeSpanRun : List SpanAct := [.allocateSpan (2 ^ 52 + 1) (some 65536)]

/-- **A span larger than what was mapped.** The span that is live has `2 ^ 52 + 1` pages, and the
    system was asked for one. -/
theorem hugeSpanRun_not_consistent :
    ∃ s, spanMachine.Reaches (.start (fun _ => 0)) hugeSpanRun s ∧
      s.live = [(65536, 2 ^ 52 + 1)] ∧ s.pageCache.mmapped = [(65536, 1)] ∧
      ¬SpansAgree s.pageCache s.live := by
  have hrun : (spanMachine.run (.start (fun _ => 0)) hugeSpanRun).map
      (fun s => (s.live, s.pageCache.mmapped)) =
        some ([(65536, 2 ^ 52 + 1)], [(65536, 1)]) := by
    decide +kernel
  obtain ⟨s, hs, hstate⟩ := Option.map_eq_some_iff.mp hrun
  rw [Prod.mk.injEq] at hstate
  refine ⟨s, Machine.reaches_of_run hs, hstate.1, hstate.2, fun hagree => ?_⟩
  -- the second page of the span was not mapped
  have hcover := hagree.cover (65536 + PAGE_SIZE)
  rw [hstate.1, hstate.2] at hcover
  obtain ⟨r, hr, -, hlast⟩ :=
    hcover.mp (.inl ⟨_, List.mem_cons_self, by decide, by decide⟩)
  rw [List.mem_singleton.mp hr] at hlast
  exact absurd hlast (by decide)

/-! ## §8 Null list heads -/

/-- The condition on a step: a call of `deallocateSpan` does not leave a null head. -/
def keepsKeys (s : SpanState) : SpanAct → Bool
  | .allocateSpan _ _ => true
  | .deallocateSpan ptr numPages => s.pageCache.mergeKeeps ptr numPages

/-- A step that keeps the keys, from a state without null heads. -/
theorem spanMachine_step_keys {s : SpanState} {a : SpanAct} (h : SpanIdle s.pageCache s.live)
    (hheads : HeadsNonNull s.pageCache) (he : spanMachine.enabled s a = true) :
    ∃ t, spanMachine.step s a = some t ∧
      (HeadsNonNull t.pageCache ↔ keepsKeys s a = true) := by
  cases a with
  | allocateSpan n mmap =>
    simp only [spanMachine, Bool.and_eq_true, decide_eq_true_eq] at he
    rcases h.allocateSpan mmap s.mem he.1.1 with ⟨k, hbound, -⟩ | ⟨q, ptr, hsome, -, -, hq⟩ |
      ⟨mem, memory, -, hsome⟩ | ⟨-, hsome⟩
    · exact absurd rfl (hheads k 0 (lowerBound_eq_some hbound).2)
    · refine ⟨⟨s.mem, q, (ptr, n) :: s.live⟩, ?_, iff_of_true (hq hheads) rfl⟩
      simp only [spanMachine, hsome, Option.map_some]
    · -- what the system returns goes to no list
      refine ⟨⟨mem, s.pageCache.recordSpan memory n, (memory, n) :: s.live⟩, ?_,
        iff_of_true hheads rfl⟩
      simp only [spanMachine, hsome, Option.map_some]
    · refine ⟨⟨s.mem, s.pageCache, s.live⟩, ?_, iff_of_true hheads rfl⟩
      simp only [spanMachine, hsome, Option.map_some]
  | deallocateSpan ptr n =>
    simp only [spanMachine, List.contains_iff_mem] at he
    obtain ⟨q, hsome, -, hkeys⟩ := h.deallocateSpan he
    refine ⟨⟨s.mem, q, s.live.erase (ptr, n)⟩, ?_, hkeys hheads⟩
    simp only [spanMachine, hsome, Option.map_some]

/-- **No call gets stuck as long as no list is left empty under its key.** After a run whose
    calls of `deallocateSpan` all meet the condition, and none of whose granted requests wraps,
    every key has a list that is not empty and no call faults; a call of `deallocateSpan` that
    does not meet the condition leaves a null head. -/
theorem pageCache_no_null_list {mem : Words} {as : List SpanAct} {s : SpanState}
    (h : spanMachine.ReachesAlong (fun s a => (pagesFit a && keepsKeys s a) = true)
      (.start mem) as s) :
    HeadsNonNull s.pageCache ∧ spanMachine.Safe s ∧
    ∀ a t, spanMachine.enabled s a = true → spanMachine.step s a = some t →
      (HeadsNonNull t.pageCache ↔ keepsKeys s a = true) := by
  have hfits : ∀ u a, (pagesFit a && keepsKeys u a) = true → pagesFit a = true := by
    intro u a hc
    exact (Bool.and_eq_true_iff.mp hc).1
  have hheads : HeadsNonNull s.pageCache := by
    induction h with
    | refl =>
      intro k v hv
      cases hv
    | snoc hrun he hc hs ih =>
      obtain ⟨t, ht, hiff⟩ := spanMachine_step_keys (spanMachine_idle (hrun.mono hfits)) ih he
      rw [ht, Option.some.injEq] at hs
      exact hs ▸ hiff.mpr (Bool.and_eq_true_iff.mp hc).2
  have hidle := spanMachine_idle (h.mono hfits)
  refine ⟨hheads, ?_, ?_⟩
  · intro a he
    obtain ⟨t, ht, -⟩ := spanMachine_step_keys hidle hheads he
    simp [ht]
  · intro a u he hs
    obtain ⟨t, ht, hiff⟩ := spanMachine_step_keys hidle hheads he
    rw [ht, Option.some.injEq] at hs
    exact hs ▸ hiff

/-- A merge that leaves a span on the list, and a reuse of the merged span. -/
def keptListRun : List SpanAct :=
  [.allocateSpan 2 (some 65536), .allocateSpan 2 (some 73728), .allocateSpan 2 (some 200704),
    .deallocateSpan 200704 2, .deallocateSpan 73728 2, .deallocateSpan 65536 2,
    .allocateSpan 3 none]

theorem keptListRun_no_null_list :
    ∃ s, spanMachine.ReachesAlong (fun s a => (pagesFit a && keepsKeys s a) = true)
        (.start (fun _ => 0)) keptListRun s ∧
      s.live = [(65536, 3)] ∧ HeadsNonNull s.pageCache ∧ spanMachine.Safe s := by
  have hrun : (spanMachine.runAlong (fun s a => pagesFit a && keepsKeys s a)
      (.start (fun _ => 0)) keptListRun).map (fun s => s.live) = some [(65536, 3)] := by
    decide +kernel
  obtain ⟨s, hs, hlive⟩ := Option.map_eq_some_iff.mp hrun
  have hreach := Machine.reachesAlong_of_runAlong hs
  obtain ⟨hheads, hsafe, -⟩ := pageCache_no_null_list hreach
  exact ⟨s, hreach, hlive, hheads, hsafe⟩

/-- The first page of a span of four is freed while the other three are live. -/
def nullHeadRun : List SpanAct :=
  [.allocateSpan 4 (some 65536), .deallocateSpan 65536 4, .allocateSpan 1 none,
    .allocateSpan 3 none, .deallocateSpan 65536 1]

/-- **A null list head.** After the run the key 3 has a null head, and `allocateSpan(2)`
    dereferences it. -/
theorem nullHeadRun_faults :
    ∃ s, spanMachine.Reaches (.start (fun _ => 0)) nullHeadRun s ∧
      s.pageCache.freeSpans_.lookup 3 = some 0 ∧
      spanMachine.enabled s (.allocateSpan 2 none) = true ∧
      spanMachine.step s (.allocateSpan 2 none) = none := by
  have hrun : (spanMachine.run (.start (fun _ => 0)) nullHeadRun).map
      (fun s => (s.pageCache.freeSpans_.lookup 3, spanMachine.enabled s (.allocateSpan 2 none),
        (spanMachine.step s (.allocateSpan 2 none)).isNone)) = some (some 0, true, true) := by
    decide +kernel
  obtain ⟨s, hs, hstate⟩ := Option.map_eq_some_iff.mp hrun
  rw [Prod.mk.injEq, Prod.mk.injEq, Option.isNone_iff_eq_none] at hstate
  exact ⟨s, Machine.reaches_of_run hs, hstate⟩

end RainWebServer.Memory
