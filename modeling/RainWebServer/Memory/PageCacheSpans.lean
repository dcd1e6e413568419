import RainWebServer.Lib.Chain
import RainWebServer.Lib.Machine
import RainWebServer.Memory.PageCache

/-!
# PageCache: Spans and Their Objects

A run of the page cache is a sequence of `allocateSpan` and `deallocateSpan` calls, each of
which holds the mutex. Three structures describe the spans: the objects, the free lists linked
through them, and `spanMap_`, in which a span stays registered when it is freed, while the rest
of a split is not registered until it is handed out.

The invariant `SpanInv` gives every object its place, live, on one free list or held by the call
in progress, by a function `owner`. Its pages lie in the address space, so no arithmetic on them
wraps around.

## Main results

- `SpanInv.end_lt` : where the pages of an object end
- `SpanInv.unlist`, `SpanInv.splitHeld`, `SpanInv.absorb`, `SpanInv.push` : what a call does to
  the objects
-/

namespace RainWebServer.Memory

open RainWebServer.Lib

/-! ## §1 The machine -/

/-- The page cache with the memory and the spans that were handed out: address and page count. -/
structure SpanState where
  mem : Words
  pageCache : PageCache
  live : List (Addr × Nat)

/-- The calls of the page cache; `mmap` is what the system returns if it is asked. -/
inductive SpanAct where
  | allocateSpan (numPages : Nat) (mmap : Option Addr)
  | deallocateSpan (ptr : Addr) (numPages : Nat)
  deriving DecidableEq, Repr

/-- A region that `mmap` returns lies in the address space. -/
def inAddressSpace (numPages : Nat) : Option Addr → Bool
  | none => true
  | some ptr => decide (ptr + sizeOfPages numPages < 2 ^ 64)

/-- Nothing was allocated. -/
def SpanState.start (mem : Words) : SpanState := ⟨mem, .new, []⟩

/-- Spans have at least one page, and a live span is freed with its page count. -/
def spanMachine : Machine SpanState SpanAct where
  enabled s
    | .allocateSpan numPages mmap =>
      decide (1 ≤ numPages) && mmapReturns s.pageCache.mmapped numPages mmap &&
        inAddressSpace numPages mmap
    | .deallocateSpan ptr numPages => s.live.contains (ptr, numPages)
  step s
    | .allocateSpan numPages mmap =>
      (PageCache.allocateSpan s.mem s.pageCache numPages mmap).map fun result =>
        ⟨result.1, result.2.1, match result.2.2 with
          | some ptr => (ptr, numPages) :: s.live
          | none => s.live⟩
    | .deallocateSpan ptr numPages =>
      (s.pageCache.deallocateSpan ptr numPages).map fun pageCache =>
        { s with pageCache := pageCache, live := s.live.erase (ptr, numPages) }

/-! ## §2 The invariant -/

/-- Where a `Span` object is. -/
inductive SpanPlace where
  | live
  | free (numPages : Nat)
  /-- The call in progress holds it. -/
  | held
  deriving DecidableEq, Repr

/-- The links of the free lists. -/
def nextOf (spans : Nat → Option Span) (id : Nat) : Nat := ((spans id).map Span.next).getD 0

/-- The pages of an object, in bytes. -/
def pieceOf (spans : Nat → Option Span) (id : Nat) : Option (Nat × Nat) :=
  (spans id).map (fun span => (span.pageAddr, span.numPages * PAGE_SIZE))

/-- The invariant of the page cache, for the spans that are live and the places of the objects. -/
structure SpanInv (p : PageCache) (live : List (Addr × Nat)) (owner : Nat → Option SpanPlace) :
    Prop where
  objects : ∀ id, p.spans id = none ↔ owner id = none
  names : ∀ id, owner id ≠ none → 0 < id ∧ id ≤ p.made
  lists : ChainsOwned (nextOf p.spans) 0 p.head SpanPlace.free owner
  counts : ∀ id k span, owner id = some (.free k) → p.spans id = some span → span.numPages = k
  handed : ∀ ptr n, (ptr, n) ∈ live ↔
    ∃ id span, owner id = some .live ∧ p.spans id = some span ∧ span.pageAddr = ptr ∧
      span.numPages = n
  once : live.Nodup
  map : ∀ a id, p.spanMap_ a = some id → ∃ span, p.spans id = some span ∧ span.pageAddr = a
  registered : ∀ id span, owner id = some .live → p.spans id = some span →
    p.spanMap_ span.pageAddr = some id
  tiling : Tiling (regions p.mmapped) (pieceOf p.spans)
  space : ∀ r ∈ regions p.mmapped, r.1 + r.2 < 2 ^ 64

namespace SpanInv

variable {p p' : PageCache} {live : List (Addr × Nat)} {owner : Nat → Option SpanPlace}

theorem nextOf_eq {spans : Nat → Option Span} {id : Nat} {span : Span}
    (h : spans id = some span) : nextOf spans id = span.next := by
  rw [nextOf, h]
  rfl

theorem pieceOf_eq {spans : Nat → Option Span} {id : Nat} {span : Span}
    (h : spans id = some span) :
    pieceOf spans id = some (span.pageAddr, span.numPages * PAGE_SIZE) := by
  rw [pieceOf, h]
  rfl

/-- An object with a place. -/
theorem object (h : SpanInv p live owner) {id : Nat} {place : SpanPlace}
    (hid : owner id = some place) : ∃ span, p.spans id = some span := by
  rw [← Option.ne_none_iff_exists']
  intro hnone
  rw [(h.objects id).mp hnone] at hid
  cases hid

/-- The place of an object. -/
theorem place (h : SpanInv p live owner) {id : Nat} {span : Span} (hid : p.spans id = some span) :
    ∃ place, owner id = some place := by
  rw [← Option.ne_none_iff_exists']
  intro hnone
  rw [(h.objects id).mpr hnone] at hid
  cases hid

/-- The object is determined by its address. -/
theorem eq_of_addr (h : SpanInv p live owner) {i j : Nat} {a b : Span} (hi : p.spans i = some a)
    (hj : p.spans j = some b) (haddr : a.pageAddr = b.pageAddr) : i = j :=
  h.tiling.eq_of_start (pieceOf_eq hi) (haddr ▸ pieceOf_eq hj)

theorem pages_pos (h : SpanInv p live owner) {id : Nat} {span : Span}
    (hid : p.spans id = some span) : 0 < span.numPages :=
  Nat.pos_of_mul_pos_right (h.tiling.pos id _ _ (pieceOf_eq hid))

/-- The pages of an object end in the address space, as those of its region do. -/
theorem end_lt (h : SpanInv p live owner) {id : Nat} {span : Span}
    (hid : p.spans id = some span) : span.pageAddr + span.numPages * PAGE_SIZE < 2 ^ 64 :=
  h.tiling.end_lt h.space (pieceOf_eq hid)

/-- The next name is not used. -/
theorem fresh (h : SpanInv p live owner) : owner (p.made + 1) = none := by
  by_contra hne
  have hle := (h.names _ hne).2
  omega

/-! ## §3 Moves -/

/-- The objects are the same, up to their links. -/
def SameShape (p p' : PageCache) : Prop :=
  ∀ id, (p'.spans id).map (fun span => (span.pageAddr, span.numPages)) =
    (p.spans id).map (fun span => (span.pageAddr, span.numPages))

theorem SameShape.symm (h : SameShape p p') : SameShape p' p := fun id => (h id).symm

/-- The object of the same name. -/
theorem SameShape.object (h : SameShape p p') {id : Nat} {span : Span}
    (hid : p.spans id = some span) : ∃ span', p'.spans id = some span' ∧
      span'.pageAddr = span.pageAddr ∧ span'.numPages = span.numPages := by
  have heq := h id
  rw [hid, Option.map_some] at heq
  obtain ⟨span', hid', hshape⟩ := Option.map_eq_some_iff.mp heq
  rw [Prod.mk.injEq] at hshape
  exact ⟨span', hid', hshape.1, hshape.2⟩

theorem SameShape.pieces (h : SameShape p p') : pieceOf p'.spans = pieceOf p.spans := by
  funext id
  have heq := congrArg (Option.map (fun shape : Nat × Nat => (shape.1, shape.2 * PAGE_SIZE))) (h id)
  rw [Option.map_map, Option.map_map] at heq
  exact heq

/-- Objects change their links and their places, but none becomes live or stops being so. -/
theorem relink (h : SpanInv p live owner) (hshape : SameShape p p')
    (hmap : p'.spanMap_ = p.spanMap_) (hmade : p'.made = p.made)
    (hmmapped : p'.mmapped = p.mmapped) {owner' : Nat → Option SpanPlace}
    (hnone : ∀ id, owner' id = none ↔ owner id = none)
    (hlive : ∀ id, owner' id = some .live ↔ owner id = some .live)
    (hcounts : ∀ id k span, owner' id = some (.free k) → p.spans id = some span →
      span.numPages = k)
    (hlists : ChainsOwned (nextOf p'.spans) 0 p'.head SpanPlace.free owner') :
    SpanInv p' live owner' := by
  refine ⟨?_, ?_, hlists, ?_, ?_, h.once, ?_, ?_, ?_, hmmapped ▸ h.space⟩
  · intro id
    rw [hnone id, ← h.objects id]
    have heq := hshape id
    cases hid : p.spans id with
    | none =>
      rw [hid, Option.map_none, Option.map_eq_none_iff] at heq
      simp [heq]
    | some span =>
      obtain ⟨span', hid', -⟩ := hshape.object hid
      simp [hid']
  · intro id hid
    rw [hmade]
    exact h.names id (fun heq => hid ((hnone id).mpr heq))
  · intro id k span hid hspan
    -- page counts belong to the shape, which is that of before
    obtain ⟨span', hspan', -, hcount⟩ := hshape.symm.object hspan
    rw [← hcount]
    exact hcounts id k span' hid hspan'
  · intro ptr n
    rw [h.handed ptr n]
    constructor
    · rintro ⟨id, span, hid, hspan, haddr, hcount⟩
      obtain ⟨span', hspan', haddr', hcount'⟩ := hshape.object hspan
      exact ⟨id, span', (hlive id).mpr hid, hspan', haddr'.trans haddr, hcount'.trans hcount⟩
    · rintro ⟨id, span, hid, hspan, haddr, hcount⟩
      obtain ⟨span', hspan', haddr', hcount'⟩ := hshape.symm.object hspan
      exact ⟨id, span', (hlive id).mp hid, hspan', haddr'.trans haddr, hcount'.trans hcount⟩
  · intro a id hid
    rw [hmap] at hid
    obtain ⟨span, hspan, haddr⟩ := h.map a id hid
    obtain ⟨span', hspan', haddr', -⟩ := hshape.object hspan
    exact ⟨span', hspan', haddr'.trans haddr⟩
  · intro id span hid hspan
    obtain ⟨span', hspan', haddr, -⟩ := hshape.symm.object hspan
    rw [hmap, ← haddr]
    exact h.registered id span' ((hlive id).mp hid) hspan'
  · rw [hmmapped, hshape.pieces]
    exact h.tiling

/-- Changing the place of one object. -/
theorem owner_update {id : Nat} {place : SpanPlace} (q : SpanPlace) (hq : q ≠ place)
    (hid : owner id ≠ some q) (i : Nat) :
    Function.update owner id (some place) i = some q ↔ owner i = some q := by
  rcases Nat.decEq i id with hne | rfl
  · rw [Function.update_of_ne hne]
  · rw [Function.update_self, Option.some.injEq]
    constructor
    · intro heq
      exact absurd heq.symm hq
    · intro heq
      exact absurd heq hid

theorem owner_update_none {id : Nat} {place : SpanPlace} (hid : owner id ≠ none) (i : Nat) :
    Function.update owner id (some place) i = none ↔ owner i = none := by
  rcases Nat.decEq i id with hne | rfl
  · rw [Function.update_of_ne hne]
  · rw [Function.update_self]
    exact ⟨fun heq => absurd heq (by simp), fun heq => absurd heq hid⟩

/-- **An object leaves its free list.** -/
theorem unlist (h : SpanInv p live owner) {k id : Nat} {l : List Nat}
    (hshape : SameShape p p') (hmap : p'.spanMap_ = p.spanMap_) (hmade : p'.made = p.made)
    (hmmapped : p'.mmapped = p.mmapped) (hid : owner id = some (.free k))
    (hnext : ∀ i, owner i ≠ some (.free k) → nextOf p'.spans i = nextOf p.spans i)
    (hhead : ∀ j, j ≠ k → p'.head j = p.head j)
    (hchain : Chain (nextOf p'.spans) 0 (p'.head k) l)
    (hl : ∀ i, i ∈ l ↔ owner i = some (.free k) ∧ i ≠ id) :
    SpanInv p' live (Function.update owner id (some .held)) := by
  -- only the members of this list change
  have hsame : ∀ j, j ≠ k → ∀ i, Function.update owner id (some .held) i = some (.free j) ↔
      owner i = some (.free j) := by
    intro j hj
    apply owner_update _ (by simp)
    rw [hid]
    simpa using hj.symm
  refine h.relink hshape hmap hmade hmmapped (owner_update_none (by simp [hid]))
    (owner_update _ (by simp) (by simp [hid])) ?_ ?_
  · intro i j span hi hspan
    have hi' : owner i = some (.free j) := by
      rcases Nat.decEq i id with hne | rfl
      · rwa [Function.update_of_ne hne] at hi
      · rw [Function.update_self] at hi
        cases hi
    exact h.counts i j span hi' hspan
  · refine h.lists.frame (· = k) hhead ?_ ?_ ?_
    · intro j i hj hi
      apply hnext
      rw [hi]
      simpa using hj
    · intro j i hj
      exact hsame j hj i
    · rintro j rfl
      refine ⟨l, hchain, fun i => (hl i).trans ?_⟩
      rcases Nat.decEq i id with hne | rfl
      · rw [Function.update_of_ne hne]
        simp [hne]
      · rw [Function.update_self]
        simp

/-- **An object that is held becomes the head of the list of its page count.** -/
theorem push (h : SpanInv p live owner) {id : Nat} {span : Span}
    (hshape : SameShape p p') (hmap : p'.spanMap_ = p.spanMap_) (hmade : p'.made = p.made)
    (hmmapped : p'.mmapped = p.mmapped) (hid : owner id = some .held)
    (hspan : p.spans id = some span)
    (hnext : ∀ i, i ≠ id → nextOf p'.spans i = nextOf p.spans i)
    (hlink : nextOf p'.spans id = p.head span.numPages)
    (hhead : ∀ j, j ≠ span.numPages → p'.head j = p.head j)
    (hself : p'.head span.numPages = id) :
    SpanInv p' live (Function.update owner id (some (.free span.numPages))) := by
  have hsame : ∀ j, j ≠ span.numPages → ∀ i,
      Function.update owner id (some (.free span.numPages)) i = some (.free j) ↔
        owner i = some (.free j) := by
    intro j hj
    exact owner_update _ (by simpa using hj) (by simp [hid])
  refine h.relink hshape hmap hmade hmmapped (owner_update_none (by simp [hid]))
    (owner_update _ (by simp) (by simp [hid])) ?_ ?_
  · intro i j span' hi hspan'
    rcases Nat.decEq i id with hne | rfl
    · rw [Function.update_of_ne hne] at hi
      exact h.counts i j span' hi hspan'
    · rw [Function.update_self, Option.some.injEq, SpanPlace.free.injEq] at hi
      rw [hspan, Option.some.injEq] at hspan'
      rw [← hspan', hi]
  · refine h.lists.frame (· = span.numPages) hhead ?_ ?_ ?_
    · intro j i _ hi
      apply hnext
      rintro rfl
      rw [hid] at hi
      cases hi
    · intro j i hj
      exact hsame j hj i
    · rintro j rfl
      obtain ⟨l, hchain, howned⟩ := h.lists span.numPages
      -- a span that is held is in no list, so it is new to this one
      have hnot : id ∉ l := by
        intro hmem
        rw [howned id, hid] at hmem
        cases hmem
      refine ⟨id :: l, ⟨hself, ?_, ?_⟩, ?_⟩
      · have hpos := (h.names id (by simp [hid])).1
        omega
      · rw [hlink]
        apply hchain.congr
        intro i hi
        apply hnext
        rintro rfl
        exact hnot hi
      · intro i
        rw [List.mem_cons, howned i]
        rcases Nat.decEq i id with hne | rfl
        · rw [Function.update_of_ne hne]
          simp [hne]
        · rw [Function.update_self]
          simp

/-- An object that is on no free list, before and after, takes another place: the objects, their
    names and the free lists are as they were. -/
theorem offLists (h : SpanInv p live owner) {id : Nat} {old : SpanPlace} (place : SpanPlace)
    (hid : owner id = some old) (hold : ∀ k, old ≠ .free k) (hplace : ∀ k, place ≠ .free k) :
    (∀ i, p.spans i = none ↔ Function.update owner id (some place) i = none) ∧
      (∀ i, Function.update owner id (some place) i ≠ none → 0 < i ∧ i ≤ p.made) ∧
      ChainsOwned (nextOf p.spans) 0 p.head SpanPlace.free
        (Function.update owner id (some place)) ∧
      ∀ i k span, Function.update owner id (some place) i = some (.free k) →
        p.spans i = some span → span.numPages = k := by
  have hsome : owner id ≠ none := by simp [hid]
  have hfree : ∀ k i, Function.update owner id (some place) i = some (.free k) ↔
      owner i = some (.free k) := by
    intro k
    apply owner_update _ (hplace k).symm
    rw [hid]
    exact fun heq => hold k (Option.some.inj heq)
  refine ⟨?_, ?_, ?_, ?_⟩
  · intro i
    rw [owner_update_none hsome i]
    exact h.objects i
  · intro i hi
    exact h.names i (fun heq => hi ((owner_update_none hsome i).mpr heq))
  · exact h.lists.frame (fun _ => False) (fun _ _ => rfl) (fun _ _ _ _ => rfl)
      (fun k i _ => hfree k i) (fun _ hf => hf.elim)
  · intro i k span hi
    exact h.counts i k span ((hfree k i).mp hi)

/-- A live span is taken back by the call that frees it. -/
theorem takeBack (h : SpanInv p live owner) {ptr n id : Nat} {span : Span}
    (hid : owner id = some .live) (hspan : p.spans id = some span) (haddr : span.pageAddr = ptr)
    (hcount : span.numPages = n) :
    SpanInv p (live.erase (ptr, n)) (Function.update owner id (some .held)) := by
  obtain ⟨hobjects, hnames, hlists, hcounts⟩ :=
    h.offLists .held hid (by simp) (by simp)
  refine ⟨hobjects, hnames, hlists, hcounts, ?_, h.once.erase _, h.map, ?_, h.tiling, h.space⟩
  · intro ptr' n'
    rw [h.once.mem_erase_iff, h.handed ptr' n']
    constructor
    · rintro ⟨hne, i, span', hi, hspan', haddr', hcount'⟩
      refine ⟨i, span', ?_, hspan', haddr', hcount'⟩
      rw [Function.update_of_ne]
      · exact hi
      · rintro rfl
        rw [hspan, Option.some.injEq] at hspan'
        subst hspan'
        exact hne (by rw [← haddr', ← hcount', haddr, hcount])
    · rintro ⟨i, span', hi, hspan', haddr', hcount'⟩
      rcases Nat.decEq i id with hne | rfl
      · rw [Function.update_of_ne hne] at hi
        refine ⟨?_, i, span', hi, hspan', haddr', hcount'⟩
        intro heq
        rw [Prod.mk.injEq] at heq
        -- two live spans have two addresses, so no other entry goes
        exact hne (h.eq_of_addr hspan' hspan (by rw [haddr', heq.1, haddr]))
      · rw [Function.update_self] at hi
        cases hi
  · intro i span' hi hspan'
    rcases Nat.decEq i id with hne | rfl
    · rw [Function.update_of_ne hne] at hi
      exact h.registered i span' hi hspan'
    · rw [Function.update_self] at hi
      cases hi

/-- **An object that is held is registered and handed out.** -/
theorem register (h : SpanInv p live owner) {id : Nat} {span : Span} (hid : owner id = some .held)
    (hspan : p.spans id = some span) :
    SpanInv { p with spanMap_ := Function.update p.spanMap_ span.pageAddr (some id) }
      ((span.pageAddr, span.numPages) :: live) (Function.update owner id (some .live)) := by
  obtain ⟨hobjects, hnames, hlists, hcounts⟩ := h.offLists .live hid (by simp) (by simp)
  -- a live span with this address would be this object, but that one is held
  have hnot : ∀ n, (span.pageAddr, n) ∉ live := by
    intro n hmem
    obtain ⟨i, span', hi, hspan', haddr', -⟩ := (h.handed _ _).mp hmem
    rw [h.eq_of_addr hspan' hspan haddr', hid] at hi
    cases hi
  refine ⟨hobjects, hnames, hlists, hcounts, ?_, List.nodup_cons.mpr ⟨hnot _, h.once⟩, ?_, ?_,
    h.tiling, h.space⟩
  · intro ptr n
    rw [List.mem_cons, h.handed ptr n, Prod.mk.injEq]
    constructor
    · rintro (⟨rfl, rfl⟩ | ⟨i, span', hi, hspan', haddr', hcount'⟩)
      · exact ⟨id, span, Function.update_self _ _ _, hspan, rfl, rfl⟩
      · refine ⟨i, span', ?_, hspan', haddr', hcount'⟩
        rw [Function.update_of_ne]
        · exact hi
        · rintro rfl
          rw [hid] at hi
          cases hi
    · rintro ⟨i, span', hi, hspan', haddr', hcount'⟩
      rcases Nat.decEq i id with hne | rfl
      · rw [Function.update_of_ne hne] at hi
        exact .inr ⟨i, span', hi, hspan', haddr', hcount'⟩
      · have hspan'' : p.spans i = some span' := hspan'
        rw [hspan, Option.some.injEq] at hspan''
        subst hspan''
        exact .inl ⟨haddr'.symm, hcount'.symm⟩
  · intro a i hi
    rcases Nat.decEq a span.pageAddr with hne | rfl
    · simp only [Function.update_of_ne hne] at hi
      exact h.map a i hi
    · simp only [Function.update_self, Option.some.injEq] at hi
      subst hi
      exact ⟨span, hspan, rfl⟩
  · intro i span' hi hspan'
    rcases Nat.decEq i id with hne | rfl
    · rw [Function.update_of_ne hne] at hi
      -- the new entry overwrites none of another live span
      have haddr : span'.pageAddr ≠ span.pageAddr := fun heq => hne (h.eq_of_addr hspan' hspan heq)
      simp only [Function.update_of_ne haddr]
      exact h.registered i span' hi hspan'
    · have hspan'' : p.spans i = some span' := hspan'
      rw [hspan, Option.some.injEq] at hspan''
      subst hspan''
      exact Function.update_self _ _ _

/-! ## §4 Objects that are made, cut and deleted -/

/-- Where the touched objects are held, or do not exist, a live or listed one is not touched. -/
theorem not_touched {touched : Nat → Prop} {owner : Nat → Option SpanPlace}
    (hidle : ∀ i, touched i → owner i = none ∨ owner i = some .held) {i : Nat}
    {place : SpanPlace} (hplace : place ≠ .held) (hi : owner i = some place) : ¬touched i := by
  intro ht
  rcases hidle i ht with hnone | hheld
  · rw [hnone] at hi
    cases hi
  · rw [hheld, Option.some.injEq] at hi
    exact hplace hi.symm

/-- An object that changes its pages, but not where they start, is still under its address. -/
theorem start_of_resized {id i : Nat} {span span' old : Span} (hspan : p.spans id = some span)
    (hspan' : p'.spans id = some span') (hstart : span'.pageAddr = span.pageAddr)
    (hother : i ≠ id → p'.spans i = p.spans i) (hold : p.spans i = some old) :
    ∃ new, p'.spans i = some new ∧ new.pageAddr = old.pageAddr := by
  rcases Nat.decEq i id with hne | rfl
  · exact ⟨old, (hother hne).trans hold, rfl⟩
  · rw [hspan, Option.some.injEq] at hold
    subst hold
    exact ⟨span', hspan', hstart⟩

/-- Objects that are held, or do not exist, change their pages; no other object is touched. -/
theorem reshape (h : SpanInv p live owner) (touched : Nat → Prop)
    {owner' : Nat → Option SpanPlace} (hmade : p.made ≤ p'.made) (hhead : p'.head = p.head)
    (howner : ∀ i, ¬touched i → owner' i = owner i)
    (hspans : ∀ i, ¬touched i → p'.spans i = p.spans i)
    (hidle : ∀ i, touched i → owner i = none ∨ owner i = some .held)
    (hobject : ∀ i, touched i → (p'.spans i = none ∧ owner' i = none) ∨
      ((∃ span, p'.spans i = some span) ∧ owner' i = some .held ∧ 0 < i ∧ i ≤ p'.made))
    (hmap : ∀ a i, p'.spanMap_ a = some i → ∃ span, p'.spans i = some span ∧ span.pageAddr = a)
    (hregistered : ∀ a i, p.spanMap_ a = some i → owner i = some .live → p'.spanMap_ a = some i)
    (htiling : Tiling (regions p'.mmapped) (pieceOf p'.spans))
    (hspace : ∀ r ∈ regions p'.mmapped, r.1 + r.2 < 2 ^ 64) : SpanInv p' live owner' := by
  have hidle' : ∀ i, touched i → owner' i = none ∨ owner' i = some .held := by
    intro i ht
    rcases hobject i ht with ⟨-, hnone⟩ | ⟨-, hheld, -⟩
    · exact .inl hnone
    · exact .inr hheld
  -- an object that is live or on a list is not touched
  have hkeep : ∀ i place, place ≠ .held → owner' i = some place →
      ¬touched i ∧ owner i = some place := by
    intro i place hplace hi
    have hnot := not_touched hidle' hplace hi
    exact ⟨hnot, howner i hnot ▸ hi⟩
  have hstay : ∀ i place, place ≠ .held → owner i = some place →
      ¬touched i ∧ owner' i = some place := by
    intro i place hplace hi
    have hnot := not_touched hidle hplace hi
    exact ⟨hnot, (howner i hnot).trans hi⟩
  have hiff : ∀ i place, place ≠ .held → (owner' i = some place ↔ owner i = some place) :=
    fun i place hplace => ⟨fun hi => (hkeep i place hplace hi).2,
      fun hi => (hstay i place hplace hi).2⟩
  refine ⟨?_, ?_, ?_, ?_, ?_, h.once, hmap, ?_, htiling, hspace⟩
  · intro i
    rcases Classical.em (touched i) with ht | ht
    · rcases hobject i ht with ⟨hspan, hnone⟩ | ⟨⟨span, hspan⟩, hheld, -⟩
      · simp [hspan, hnone]
      · simp [hspan, hheld]
    · rw [howner i ht, hspans i ht]
      exact h.objects i
  · intro i hi
    rcases Classical.em (touched i) with ht | ht
    · rcases hobject i ht with ⟨-, hnone⟩ | ⟨-, -, hname⟩
      · exact absurd hnone hi
      · exact hname
    · rw [howner i ht] at hi
      have hname := h.names i hi
      omega
  · refine h.lists.frame (fun _ => False) (fun k _ => congrFun hhead k) ?_
      (fun k i _ => hiff i (.free k) (by simp)) (fun _ hf => hf.elim)
    intro k i _ hi
    rw [nextOf, nextOf, hspans i (hstay i (.free k) (by simp) hi).1]
  · intro i k span hi hspan
    obtain ⟨hnot, hi'⟩ := hkeep i (.free k) (by simp) hi
    exact h.counts i k span hi' (hspans i hnot ▸ hspan)
  · intro ptr n
    rw [h.handed ptr n]
    constructor
    · rintro ⟨i, span, hi, hspan, haddr, hcount⟩
      obtain ⟨hnot, hi'⟩ := hstay i .live (by simp) hi
      exact ⟨i, span, hi', (hspans i hnot).trans hspan, haddr, hcount⟩
    · rintro ⟨i, span, hi, hspan, haddr, hcount⟩
      obtain ⟨hnot, hi'⟩ := hkeep i .live (by simp) hi
      exact ⟨i, span, hi', hspans i hnot ▸ hspan, haddr, hcount⟩
  · intro i span hi hspan
    obtain ⟨hnot, hi'⟩ := hkeep i .live (by simp) hi
    exact hregistered _ _ (h.registered i span hi' (hspans i hnot ▸ hspan)) hi'

/-- **A span that is held is cut**: the pages beyond the first `n` are a new object. -/
theorem splitHeld (h : SpanInv p live owner) {id n : Nat} {span span' rest : Span}
    (hid : owner id = some .held) (hspan : p.spans id = some span) (hn : 0 < n)
    (hlt : n < span.numPages) (hmade : p'.made = p.made + 1) (hhead : p'.head = p.head)
    (hmap : p'.spanMap_ = p.spanMap_) (hmmapped : p'.mmapped = p.mmapped)
    (hspan' : p'.spans id = some span')
    (hshape : span'.pageAddr = span.pageAddr ∧ span'.numPages = n)
    (hrest : p'.spans (p.made + 1) = some rest)
    (hshape' : rest.pageAddr = span.pageAddr + n * PAGE_SIZE ∧ rest.numPages = span.numPages - n)
    (hother : ∀ i, i ≠ id → i ≠ p.made + 1 → p'.spans i = p.spans i) :
    SpanInv p' live (Function.update owner (p.made + 1) (some .held)) := by
  have hname := h.names id (by simp [hid])
  have hne : id ≠ p.made + 1 := by omega
  have hnew : p.spans (p.made + 1) = none := (h.objects _).mpr h.fresh
  refine h.reshape (fun i => i = id ∨ i = p.made + 1) (by omega) hhead ?_ ?_ ?_ ?_ ?_ ?_ ?_
    (hmmapped ▸ h.space)
  · intro i hi
    rw [not_or] at hi
    exact Function.update_of_ne hi.2 _ _
  · intro i hi
    rw [not_or] at hi
    exact hother i hi.1 hi.2
  · rintro i (rfl | rfl)
    · exact .inr hid
    · exact .inl h.fresh
  · rintro i (rfl | rfl)
    · refine .inr ⟨⟨_, hspan'⟩, ?_, by omega⟩
      rw [Function.update_of_ne hne, hid]
    · exact .inr ⟨⟨_, hrest⟩, Function.update_self _ _ _, by omega⟩
  · intro a i hi
    rw [hmap] at hi
    obtain ⟨old, hold, rfl⟩ := h.map a i hi
    have hinew : i ≠ p.made + 1 := by
      rintro rfl
      rw [hnew] at hold
      cases hold
    exact start_of_resized hspan hspan' hshape.1 (fun hiid => hother i hiid hinew) hold
  · intro a i hi _
    rw [hmap]
    exact hi
  · -- the two parts have the bytes of the whole
    have hsum : n * PAGE_SIZE + (span.numPages - n) * PAGE_SIZE = span.numPages * PAGE_SIZE := by
      rw [← Nat.add_mul]
      congr 1
      omega
    rw [hmmapped]
    refine h.tiling.split (i := id) (j := p.made + 1) (a := span.pageAddr) (m := n * PAGE_SIZE)
      (n := (span.numPages - n) * PAGE_SIZE) hne ?_ ?_ ?_ ?_ ?_ ?_ ?_
    · exact Nat.mul_pos hn (by decide)
    · exact Nat.mul_pos (by omega) (by decide)
    · rw [pieceOf_eq hspan, hsum]
    · rw [pieceOf, hnew]
      rfl
    · rw [pieceOf_eq hspan', hshape.1, hshape.2]
    · rw [pieceOf_eq hrest, hshape'.1, hshape'.2]
    · intro k hk hk'
      rw [pieceOf, pieceOf, hother k hk hk']

/-- **A span that is held takes the pages of the one behind it**, which is held too and whose
    object is deleted. -/
theorem absorb (h : SpanInv p live owner) {id nextId : Nat} {span span' nextSpan : Span}
    (hid : owner id = some .held) (hspan : p.spans id = some span)
    (hnext : owner nextId = some .held) (hnextSpan : p.spans nextId = some nextSpan)
    (haddr : nextSpan.pageAddr = span.pageAddr + span.numPages * PAGE_SIZE)
    (hmade : p'.made = p.made) (hhead : p'.head = p.head) (hmmapped : p'.mmapped = p.mmapped)
    (hmap : p'.spanMap_ = Function.update p.spanMap_ nextSpan.pageAddr none)
    (hne : id ≠ nextId) (hspan' : p'.spans id = some span')
    (hshape : span'.pageAddr = span.pageAddr ∧
      span'.numPages = span.numPages + nextSpan.numPages)
    (hdeleted : p'.spans nextId = none)
    (hother : ∀ i, i ≠ id → i ≠ nextId → p'.spans i = p.spans i) :
    SpanInv p' live (Function.update owner nextId none) := by
  have hname := h.names id (by simp [hid])
  refine h.reshape (fun i => i = id ∨ i = nextId) (by omega) hhead ?_ ?_ ?_ ?_ ?_ ?_ ?_
    (hmmapped ▸ h.space)
  · intro i hi
    rw [not_or] at hi
    exact Function.update_of_ne hi.2 _ _
  · intro i hi
    rw [not_or] at hi
    exact hother i hi.1 hi.2
  · rintro i (rfl | rfl)
    · exact .inr hid
    · exact .inr hnext
  · rintro i (rfl | rfl)
    · refine .inr ⟨⟨_, hspan'⟩, ?_, by omega⟩
      rw [Function.update_of_ne hne, hid]
    · exact .inl ⟨hdeleted, Function.update_self _ _ _⟩
  · intro a i hi
    rw [hmap] at hi
    -- the only entry of the deleted object was the one under its own address
    have ha : a ≠ nextSpan.pageAddr := by
      rintro rfl
      rw [Function.update_self] at hi
      cases hi
    rw [Function.update_of_ne ha] at hi
    obtain ⟨old, hold, holdAddr⟩ := h.map a i hi
    have hinext : i ≠ nextId := by
      rintro rfl
      rw [hnextSpan, Option.some.injEq] at hold
      subst hold
      exact ha holdAddr.symm
    obtain ⟨new, hnew, hnewAddr⟩ :=
      start_of_resized hspan hspan' hshape.1 (fun hiid => hother i hiid hinext) hold
    exact ⟨new, hnew, hnewAddr.trans holdAddr⟩
  · intro a i hi hlive
    have ha : a ≠ nextSpan.pageAddr := by
      rintro rfl
      obtain ⟨old, hold, holdAddr⟩ := h.map _ i hi
      rw [h.eq_of_addr hold hnextSpan holdAddr, hnext] at hlive
      cases hlive
    rw [hmap, Function.update_of_ne ha]
    exact hi
  · rw [hmmapped]
    refine h.tiling.merge (i := id) (j := nextId) (a := span.pageAddr)
      (m := span.numPages * PAGE_SIZE) (n := nextSpan.numPages * PAGE_SIZE) (pieceOf_eq hspan)
      ?_ ?_ ?_ ?_
    · rw [pieceOf_eq hnextSpan, haddr]
    · rw [pieceOf_eq hspan', hshape.1, hshape.2, Nat.add_mul]
    · rw [pieceOf, hdeleted]
      rfl
    · intro k hk hk'
      rw [pieceOf, pieceOf, hother k hk hk']

/-- **A region obtained from the system is a new object**, if all its pages were mapped. -/
theorem adopt (h : SpanInv p live owner) {span : Span} (hpages : 0 < span.numPages)
    (hfresh : ∀ r ∈ regions p.mmapped, Apart span.pageAddr (span.numPages * PAGE_SIZE) r.1 r.2)
    (hend : span.pageAddr + span.numPages * PAGE_SIZE < 2 ^ 64)
    (hmade : p'.made = p.made + 1) (hhead : p'.head = p.head)
    (hmap : p'.spanMap_ = p.spanMap_)
    (hmmapped : p'.mmapped = (span.pageAddr, span.numPages) :: p.mmapped)
    (hspan : p'.spans (p.made + 1) = some span)
    (hother : ∀ i, i ≠ p.made + 1 → p'.spans i = p.spans i) :
    SpanInv p' live (Function.update owner (p.made + 1) (some .held)) := by
  -- ids are given out in order, so the next one is free
  have hnew : p.spans (p.made + 1) = none := (h.objects _).mpr h.fresh
  refine h.reshape (fun i => i = p.made + 1) (by omega) hhead ?_ hother ?_ ?_ ?_ ?_ ?_ ?_
  · intro i hi
    exact Function.update_of_ne hi _ _
  · rintro i rfl
    exact .inl h.fresh
  · rintro i rfl
    exact .inr ⟨⟨_, hspan⟩, Function.update_self _ _ _, by omega⟩
  · intro a i hi
    rw [hmap] at hi
    obtain ⟨old, hold, haddr⟩ := h.map a i hi
    refine ⟨old, (hother i ?_).trans hold, haddr⟩
    rintro rfl
    rw [hnew] at hold
    cases hold
  · intro a i hi _
    rw [hmap]
    exact hi
  · rw [hmmapped]
    refine h.tiling.fresh (i := p.made + 1) (Nat.mul_pos hpages (by decide)) hfresh ?_
      (pieceOf_eq hspan) ?_
    · rw [pieceOf, hnew]
      rfl
    · intro j hj
      rw [pieceOf, pieceOf, hother j hj]
  · rw [hmmapped]
    intro r hr
    rcases List.mem_cons.mp hr with rfl | hr
    · exact hend
    · exact h.space r hr

end SpanInv

end RainWebServer.Memory
