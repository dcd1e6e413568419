import RainWebServer.Memory.MemoryPool

/-!
# MemoryPool: Who Owns a Block

Every block that was cut from a span has one place: it is live, on one free list, or loose, that
is on no list. The invariant `PoolInv` gives each block its place by a function `owner`, so a
block with two places cannot be described; what is to be shown is that the lists that are
really linked through the blocks have exactly the blocks whose owner they are.

The counters `freeListSize_` do not occur in the invariant. Where the code trusts a counter that
is off, blocks become loose and stay so, but never get a second place.

## Main results

- `PoolInv.release`, `PoolInv.relink` : a list lets blocks go, a list takes loose blocks
- `PoolInv.handOut`, `PoolInv.takeBack` : a loose block becomes live, a live block loose
- `PoolInv.adopt` : the blocks of a new span get a place
-/

namespace RainWebServer.Memory

open RainWebServer.Lib SizeClass

/-! ## §1 Lists and places -/

/-- The free lists: of a thread, of the central cache, and the one a thread is giving back. -/
inductive FreeList (T : Type) where
  | thread (t : T) (index : Nat)
  | central (index : Nat)
  | returning (t : T) (index : Nat)
  deriving DecidableEq

/-- The size class of a list. -/
def FreeList.index {T : Type} : FreeList T → Nat
  | .thread _ index | .central index | .returning _ index => index

/-- Where a block is. -/
inductive Place (T : Type) where
  | live (index : Nat)
  | free (list : FreeList T)
  /-- On no list: a call holds it, or it is lost. -/
  | loose (index : Nat)
  deriving DecidableEq

/-- The size class of a place. -/
def Place.index {T : Type} : Place T → Nat
  | .live index | .loose index => index
  | .free list => list.index

/-- The list of size class `i` that `returnRange` is called with. -/
def PoolCall.list : PoolCall → Nat → Addr
  | .returnRange start _ index, i => if index = i then start else 0
  | _, _ => 0

variable {T : Type}

/-- The first block of a list. -/
def MemoryPool.head (s : MemoryPool T) : FreeList T → Addr
  | .thread t index => (s.threads t).freeList_ index
  | .central index => s.centralCache.centralFreeList_ index
  | .returning t index => (s.calls t).list index

/-- The blocks of a carved span. -/
def spanBlocks (span : Addr × Nat) : List Addr :=
  CentralCache.blocks span.1 (blockSize span.2) 0 (CentralCache.blockCount (blockSize span.2))

/-- Give the blocks of `l` a new place. -/
def reown (owner : Addr → Option (Place T)) (l : List Addr) (p : Place T) :
    Addr → Option (Place T) :=
  fun a => if a ∈ l then some p else owner a

section Reown

variable {owner : Addr → Option (Place T)} {l : List Addr} {p q : Place T} {a : Addr}

theorem reown_of_mem (h : a ∈ l) : reown owner l p a = some p := if_pos h

theorem reown_of_not_mem (h : a ∉ l) : reown owner l p a = owner a := if_neg h

/-- A place that the blocks which move neither have nor get keeps its blocks. -/
theorem reown_eq_iff (hp : p ≠ q) (hl : ∀ b ∈ l, owner b ≠ some q) (a : Addr) :
    reown owner l p a = some q ↔ owner a = some q := by
  rcases Classical.em (a ∈ l) with hmem | hmem
  · rw [reown_of_mem hmem, Option.some.injEq]
    constructor
    · intro heq
      exact absurd heq hp
    · intro heq
      exact absurd heq (hl a hmem)
  · rw [reown_of_not_mem hmem]

/-- Blocks with one place have no other. -/
theorem owner_ne (hl : ∀ a ∈ l, owner a = some p) (hq : q ≠ p) : ∀ a ∈ l, owner a ≠ some q := by
  intro a ha heq
  rw [hl a ha, Option.some.injEq] at heq
  exact hq heq.symm

/-- The block is on no list and not live. -/
def Loose (owner : Addr → Option (Place T)) (a : Addr) : Prop :=
  ∃ index, owner a = some (.loose index)

theorem loose_reown_loose {index : Nat} (h : Loose (reown owner l (.loose index)) a) :
    a ∈ l ∨ Loose owner a := by
  rcases Classical.em (a ∈ l) with hmem | hmem
  · exact .inl hmem
  · obtain ⟨i, hi⟩ := h
    rw [reown_of_not_mem hmem] at hi
    exact .inr ⟨i, hi⟩

/-- A loose block that did not become loose now was loose before. -/
theorem loose_of_not_mem {index : Nat} (h : Loose (reown owner l (.loose index)) a)
    (hnot : a ∉ l) : Loose owner a := by
  rcases loose_reown_loose h with hmem | hloose
  · exact absurd hmem hnot
  · exact hloose

theorem loose_reown (hp : ∀ index, p ≠ .loose index) (h : Loose (reown owner l p) a) :
    a ∉ l ∧ Loose owner a := by
  obtain ⟨i, hi⟩ := h
  rcases Classical.em (a ∈ l) with hmem | hmem
  · rw [reown_of_mem hmem, Option.some.injEq] at hi
    exact absurd hi (hp i)
  · rw [reown_of_not_mem hmem] at hi
    exact ⟨hmem, i, hi⟩

end Reown

/-! ## §2 The invariant -/

/-- The lists that calls of `returnRange` hold are not longer than what the calls were told. -/
def ReturnsCover (s : MemoryPool T) (owner : Addr → Option (Place T)) : Prop :=
  ∀ t start bytes index, s.calls t = .returnRange start bytes index →
    ∀ l : List Addr, l.Nodup → (∀ a ∈ l, owner a = some (.free (.returning t index))) →
      l.length ≤ max 1 bytes

/-- The invariant of the pool, for an assignment of places to the blocks. With `covers` it also
    says that the calls of `returnRange` find the end of their lists. -/
structure PoolInv (covers : Prop) (s : MemoryPool T) (owner : Addr → Option (Place T)) :
    Prop where
  lists : ChainsOwned s.mem 0 s.head Place.free owner
  live : ∀ a index, owner a = some (.live index) ↔
    ∃ size, (a, size) ∈ s.live ∧ getIndex size = index
  sizes : ∀ b ∈ s.live, b.2 ≤ MAX_BYTES
  once : (s.live.map Prod.fst).Nodup
  layout : Layout (regions s.pageCache.mmapped)
    (fun a => (owner a).map (fun p => blockSize p.index))
  aligned : ∀ a p, owner a = some p → a ≠ 0 ∧ a % ALIGNMENT = 0
  carved : ∀ span ∈ s.carved, ∀ a ∈ spanBlocks span, ∃ p, owner a = some p ∧ p.index = span.2
  returns : covers → ReturnsCover s owner

namespace PoolInv

variable {covers : Prop} {s : MemoryPool T} {owner : Addr → Option (Place T)}

/-- A block has the size of the size class of its place. -/
theorem layout_size {a : Addr} {p : Place T} (ha : owner a = some p) :
    (owner a).map (fun p => blockSize p.index) = some (blockSize p.index) := by
  rw [ha]
  rfl

/-- The place of a live block. -/
theorem owner_live (h : PoolInv covers s owner) {b : Addr × Nat} (hb : b ∈ s.live) :
    owner b.1 = some (.live (getIndex b.2)) :=
  (h.live b.1 _).mpr ⟨b.2, hb, rfl⟩

/-- A word of a live block is not the first word of a block of a list. -/
theorem live_word_ne (h : PoolInv covers s owner) {b : Addr × Nat} (hb : b ∈ s.live) {w a : Addr}
    (hw : b.1 ≤ w ∧ w < b.1 + blockSize (getIndex b.2)) {f : FreeList T}
    (ha : owner a = some (.free f)) : a ≠ w := by
  have hlive := h.owner_live hb
  have hne : b.1 ≠ a := by
    intro heq
    rw [heq, ha] at hlive
    cases hlive
  exact (h.layout.not_start (layout_size hlive) (layout_size ha) hne hw).symm

/-- A block with another place is not live. -/
theorem not_live (h : PoolInv covers s owner) {a : Addr} {p : Place T} (ha : owner a = some p)
    (hp : ∀ index, p ≠ .live index) : ∀ b ∈ s.live, b.1 ≠ a := by
  rintro b hb rfl
  have hlive := h.owner_live hb
  rw [ha, Option.some.injEq] at hlive
  exact hp _ hlive

/-- **Blocks change their place.** The blocks of `l` are of the size class of `p`; what is left
    to show is that the new lists, live blocks and calls agree with the new places. -/
theorem move (h : PoolInv covers s owner) {s' : MemoryPool T} {l : List Addr} {p : Place T}
    (hpages : s'.pageCache = s.pageCache) (hcarved : s'.carved = s.carved)
    (hl : ∀ a ∈ l, ∃ q, owner a = some q ∧ q.index = p.index)
    (hlists : ChainsOwned s'.mem 0 s'.head Place.free (reown owner l p))
    (hlive : ∀ a index, reown owner l p a = some (.live index) ↔
      ∃ size, (a, size) ∈ s'.live ∧ getIndex size = index)
    (hsizes : ∀ b ∈ s'.live, b.2 ≤ MAX_BYTES)
    (honce : (s'.live.map Prod.fst).Nodup)
    (hreturns : covers → ReturnsCover s' (reown owner l p)) :
    PoolInv covers s' (reown owner l p) := by
  -- the class of a block does not change
  have hclass : ∀ a q, owner a = some q →
      ∃ q', reown owner l p a = some q' ∧ q'.index = q.index := by
    intro a q ha
    rcases Classical.em (a ∈ l) with hmem | hmem
    · obtain ⟨q', hq', hindex⟩ := hl a hmem
      rw [ha, Option.some.injEq] at hq'
      exact ⟨p, reown_of_mem hmem, by rw [hq', hindex]⟩
    · exact ⟨q, by rw [reown_of_not_mem hmem, ha], rfl⟩
  have hsize : (fun a => (reown owner l p a).map (fun p => blockSize p.index)) =
      fun a => (owner a).map (fun p => blockSize p.index) := by
    funext a
    rcases Classical.em (a ∈ l) with hmem | hmem
    · obtain ⟨q, hq, hindex⟩ := hl a hmem
      rw [reown_of_mem hmem, hq, Option.map_some, Option.map_some, hindex]
    · rw [reown_of_not_mem hmem]
  refine ⟨hlists, hlive, hsizes, honce, ?_, ?_, ?_, hreturns⟩
  · rw [hsize, hpages]
    exact h.layout
  · intro a q ha
    rcases Classical.em (a ∈ l) with hmem | hmem
    · obtain ⟨q', hq', -⟩ := hl a hmem
      exact h.aligned a q' hq'
    · rw [reown_of_not_mem hmem] at ha
      exact h.aligned a q ha
  · rw [hcarved]
    intro span hspan a ha
    obtain ⟨q, hq, hindex⟩ := h.carved span hspan a ha
    obtain ⟨q', hq', hindex'⟩ := hclass a q hq
    exact ⟨q', hq', hindex'.trans hindex⟩

/-- The lists after a step that changes one list `f` and moves the blocks of `l`. -/
theorem lists_move (h : PoolInv covers s owner) {s' : MemoryPool T} {f : FreeList T}
    {l : List Addr} {p : Place T}
    (hhead : ∀ g, g ≠ f → s'.head g = s.head g)
    (hmem : ∀ g a, g ≠ f → owner a = some (.free g) → s'.mem a = s.mem a)
    (hp : ∀ g, g ≠ f → p ≠ .free g) (hl : ∀ g, g ≠ f → ∀ a ∈ l, owner a ≠ some (.free g))
    {l' : List Addr} (hchain : Chain s'.mem 0 (s'.head f) l')
    (hnew : ∀ a, a ∈ l' ↔ reown owner l p a = some (.free f)) :
    ChainsOwned s'.mem 0 s'.head Place.free (reown owner l p) := by
  refine h.lists.frame (· = f) hhead hmem ?_ ?_
  · intro g a hg
    exact reown_eq_iff (hp g hg) (hl g hg) a
  · rintro g rfl
    exact ⟨l', hchain, hnew⟩

/-- The lists after a step that changes none of them and moves blocks of none of them. -/
theorem lists_keep (h : PoolInv covers s owner) {l : List Addr} {p : Place T}
    (hp : ∀ g, p ≠ .free g) (hl : ∀ g, ∀ a ∈ l, owner a ≠ some (.free g)) :
    ChainsOwned s.mem 0 s.head Place.free (reown owner l p) :=
  h.lists.frame (fun _ => False) (fun _ _ => rfl) (fun _ _ _ _ => rfl)
    (fun g a _ => reown_eq_iff (hp g) (hl g) a) (fun _ hf => absurd hf id)

/-- The live blocks after a step that moves blocks which neither are nor become live. -/
theorem live_move (h : PoolInv covers s owner) {l : List Addr} {p : Place T}
    (hp : ∀ index, p ≠ .live index) (hl : ∀ index, ∀ a ∈ l, owner a ≠ some (.live index)) :
    ∀ a index, reown owner l p a = some (.live index) ↔
      ∃ size, (a, size) ∈ s.live ∧ getIndex size = index := by
  intro a index
  rw [reown_eq_iff (hp index) (hl index) a]
  exact h.live a index

/-- Calls that stay as they are cover their lists as long as these take no blocks. -/
theorem returns_move (h : PoolInv covers s owner) {s' : MemoryPool T} {l : List Addr} {p : Place T}
    (hp : ∀ t index, p ≠ .free (.returning t index))
    (hcalls : ∀ t start bytes index, s'.calls t = .returnRange start bytes index →
      s.calls t = .returnRange start bytes index) :
    covers → ReturnsCover s' (reown owner l p) := by
  intro hcovers t start bytes index hcall l' hnodup hl'
  apply h.returns hcovers t start bytes index (hcalls t start bytes index hcall) l' hnodup
  intro a ha
  have howner := hl' a ha
  rcases Classical.em (a ∈ l) with hmem | hmem
  · rw [reown_of_mem hmem, Option.some.injEq] at howner
    exact absurd howner (hp t index)
  · rwa [reown_of_not_mem hmem] at howner

/-! ## §3 Moves -/

/-- A step that changes neither the blocks nor the lists. -/
theorem congr (h : PoolInv covers s owner) {s' : MemoryPool T} (hmem : s'.mem = s.mem)
    (hpages : s'.pageCache = s.pageCache) (hhead : s'.head = s.head) (hlive : s'.live = s.live)
    (hcarved : s'.carved = s.carved)
    (hcalls : ∀ t start bytes index, s'.calls t = .returnRange start bytes index →
      s.calls t = .returnRange start bytes index) : PoolInv covers s' owner := by
  refine ⟨?_, ?_, hlive ▸ h.sizes, hlive ▸ h.once, hpages ▸ h.layout, h.aligned,
    hcarved ▸ h.carved, ?_⟩
  · rw [hmem, hhead]
    exact h.lists
  · rw [hlive]
    exact h.live
  · intro hcovers t start bytes index hcall
    exact h.returns hcovers t start bytes index (hcalls t start bytes index hcall)

/-- **A list lets blocks go.** The blocks of `l` leave the list `f`, on which those of `l'`
    remain; only links in blocks of `f` are written. -/
theorem release (h : PoolInv covers s owner) (s' : MemoryPool T) (f : FreeList T)
    (l l' : List Addr) (hpages : s'.pageCache = s.pageCache) (hlive : s'.live = s.live)
    (hcarved : s'.carved = s.carved)
    (hcalls : ∀ t start bytes index, s'.calls t = .returnRange start bytes index →
      s.calls t = .returnRange start bytes index)
    (hhead : ∀ g, g ≠ f → s'.head g = s.head g)
    (hmem : ∀ a, owner a ≠ some (.free f) → s'.mem a = s.mem a)
    (hsplit : ∀ a, owner a = some (.free f) ↔ a ∈ l ∨ a ∈ l') (hdisjoint : ∀ a ∈ l, a ∉ l')
    (hchain : Chain s'.mem 0 (s'.head f) l') :
    PoolInv covers s' (reown owner l (.loose f.index)) := by
  -- the blocks that go keep their size class and lose their list
  have hl : ∀ a ∈ l, owner a = some (.free f) := fun a ha => (hsplit a).mpr (.inl ha)
  refine h.move hpages hcarved (fun a ha => ⟨_, hl a ha, rfl⟩) ?_ ?_ (hlive ▸ h.sizes)
    (hlive ▸ h.once) (h.returns_move (by simp) hcalls)
  · apply h.lists_move hhead
    · intro g a hg ha
      apply hmem
      rw [ha]
      simpa using hg
    · simp
    · intro g hg
      exact owner_ne hl (by simpa using hg)
    · exact hchain
    · intro a
      rcases Classical.em (a ∈ l) with hmem | hmem
      · rw [reown_of_mem hmem]
        simp [hdisjoint a hmem]
      · rw [reown_of_not_mem hmem, hsplit a]
        simp [hmem]
  · rw [hlive]
    exact h.live_move (by simp) (fun index => owner_ne hl (by simp))

/-- **A list takes loose blocks.** After the step the list `f` is `l`, of the blocks that it had
    and loose ones of its size class; only links in such blocks are written. -/
theorem relink (h : PoolInv covers s owner) (s' : MemoryPool T) (f : FreeList T) (l : List Addr)
    (hpages : s'.pageCache = s.pageCache) (hlive : s'.live = s.live)
    (hcarved : s'.carved = s.carved) (hreturns : covers → ReturnsCover s' (reown owner l (.free f)))
    (hhead : ∀ g, g ≠ f → s'.head g = s.head g)
    (hmem : ∀ a, owner a ≠ some (.free f) → owner a ≠ some (.loose f.index) → s'.mem a = s.mem a)
    (hchain : Chain s'.mem 0 (s'.head f) l)
    (hold : ∀ a, owner a = some (.free f) → a ∈ l)
    (hl : ∀ a ∈ l, owner a = some (.free f) ∨ owner a = some (.loose f.index)) :
    PoolInv covers s' (reown owner l (.free f)) := by
  -- no block of `l` had another place, so nothing else is disturbed
  have hother : ∀ q, q ≠ .free f → q ≠ .loose f.index → ∀ a ∈ l, owner a ≠ some q := by
    intro q hfree hloose a ha heq
    rcases hl a ha with hq | hq
    · rw [hq, Option.some.injEq] at heq
      exact hfree heq.symm
    · rw [hq, Option.some.injEq] at heq
      exact hloose heq.symm
  refine h.move hpages hcarved ?_ ?_ ?_ (hlive ▸ h.sizes) (hlive ▸ h.once) hreturns
  · intro a ha
    rcases hl a ha with hq | hq
    · exact ⟨_, hq, rfl⟩
    · exact ⟨_, hq, rfl⟩
  · apply h.lists_move hhead
    · intro g a hg ha
      apply hmem
      · rw [ha]
        simpa using hg
      · rw [ha]
        simp
    · intro g hg
      simpa using hg.symm
    · intro g hg
      exact hother _ (by simpa using hg) (by simp)
    · exact hchain
    · intro a
      rcases Classical.em (a ∈ l) with hmem | hmem
      · simp [reown_of_mem hmem, hmem]
      · rw [reown_of_not_mem hmem]
        exact ⟨fun hmem' => absurd hmem' hmem, hold a⟩
  · rw [hlive]
    exact h.live_move (by simp) (fun index => hother _ (by simp) (by simp))

/-- A loose block is handed out. -/
theorem handOut (h : PoolInv covers s owner) {index size : Nat} {ptr : Addr}
    (hindex : index = getIndex size ∧ size ≤ MAX_BYTES)
    (hptr : owner ptr = some (.loose index)) :
    PoolInv covers { s with live := (ptr, size) :: s.live } (reown owner [ptr] (.live index)) := by
  obtain ⟨rfl, hsize⟩ := hindex
  have hl : ∀ a ∈ [ptr], owner a = some (.loose (getIndex size)) := by simpa using hptr
  have hnot := h.not_live hptr (by simp)
  refine h.move rfl rfl (fun a ha => ⟨_, hl a ha, rfl⟩)
    (h.lists_keep (by simp) (fun g => owner_ne hl (by simp))) ?_ ?_ ?_
    (h.returns_move (by simp) (fun _ _ _ _ hcall => hcall))
  · intro a index
    rcases Classical.em (a = ptr) with rfl | hne
    · rw [reown_of_mem List.mem_cons_self, Option.some.injEq, Place.live.injEq]
      constructor
      · intro heq
        exact ⟨size, List.mem_cons_self, heq⟩
      · rintro ⟨n, hn, rfl⟩
        rcases List.mem_cons.mp hn with heq | hn
        · rw [(Prod.mk.inj heq).2]
        · -- a loose block is not live already
          exact absurd rfl (hnot _ hn)
    · rw [reown_of_not_mem (by simpa using hne), h.live a index]
      simp [hne]
  · intro b hb
    rcases List.mem_cons.mp hb with rfl | hb
    · exact hsize
    · exact h.sizes b hb
  · rw [List.map_cons, List.nodup_cons]
    refine ⟨?_, h.once⟩
    intro hmem
    obtain ⟨b, hb, heq⟩ := List.mem_map.mp hmem
    exact hnot b hb heq

/-- A live block is taken back. -/
theorem takeBack (h : PoolInv covers s owner) {b : Addr × Nat} (hb : b ∈ s.live) :
    PoolInv covers { s with live := s.live.filter (fun b' => b'.1 ≠ b.1) }
      (reown owner [b.1] (.loose (getIndex b.2))) := by
  have hlive := h.owner_live hb
  have hl : ∀ a ∈ [b.1], owner a = some (.live (getIndex b.2)) := by simpa using hlive
  refine h.move rfl rfl (fun a ha => ⟨_, hl a ha, rfl⟩)
    (h.lists_keep (by simp) (fun g => owner_ne hl (by simp))) ?_ ?_ ?_
    (h.returns_move (by simp) (fun _ _ _ _ hcall => hcall))
  · intro a index
    rcases Classical.em (a = b.1) with rfl | hne
    · rw [reown_of_mem List.mem_cons_self]
      simp
    · rw [reown_of_not_mem (by simpa using hne), h.live a index]
      simp [hne]
  · intro b' hb'
    exact h.sizes b' (List.mem_filter.mp hb').1
  · exact h.once.sublist (List.filter_sublist.map _)

/-- No block starts in the region of a new span. -/
theorem not_in_new_region (h : PoolInv covers s owner) {index memory : Nat}
    (hindex : index < FREE_LIST_SIZE)
    (hmmap : mmapReturns s.pageCache.mmapped (CentralCache.spanPages (blockSize index))
      (some memory) = true) {a : Nat} {p : Place T} (ha : owner a = some p) :
    ¬(memory ≤ a ∧ a < memory + CentralCache.spanPages (blockSize index) * PAGE_SIZE) := by
  intro hin
  obtain ⟨r, hr, hlo, hhi⟩ := h.layout.inside a _ (layout_size ha)
  have hpos := blockSize_pos p.index
  have hapart := apart_of_mmap hmmap r hr
  rw [CentralCache.sizeOfPages_spanPages hindex] at hapart
  unfold Apart at hapart
  omega

/-- **A new span.** Its blocks are loose; only words of the span are written. -/
theorem adopt (h : PoolInv covers s owner) {index memory : Nat} (hindex : index < FREE_LIST_SIZE)
    (mem' : Words)
    (hmmap : mmapReturns s.pageCache.mmapped (CentralCache.spanPages (blockSize index))
      (some memory) = true)
    (hmem : ∀ a : Nat, ¬(memory ≤ a ∧
      a < memory + CentralCache.spanPages (blockSize index) * PAGE_SIZE) → mem' a = s.mem a) :
    PoolInv covers { s with
        mem := mem'
        pageCache := s.pageCache.recordSpan memory (CentralCache.spanPages (blockSize index))
        carved := (memory, index) :: s.carved }
      (reown owner (spanBlocks (memory, index)) (.loose index)) := by
  have hfit := CentralCache.blockCount_mul_le (blockSize_pos index)
  have hspan : ∀ a ∈ spanBlocks (memory, index), memory ≤ a ∧
      a < memory + CentralCache.spanPages (blockSize index) * PAGE_SIZE :=
    fun a ha => CentralCache.mem_span (blockSize_pos index) ha
  have hregions := apart_of_mmap hmmap
  -- no block starts in the new region, so the new blocks had no place
  have hold : ∀ (a : Nat) p, owner a = some p →
      ¬(memory ≤ a ∧ a < memory + CentralCache.spanPages (blockSize index) * PAGE_SIZE) :=
    fun a p ha => h.not_in_new_region hindex hmmap ha
  have hbytes := CentralCache.sizeOfPages_spanPages hindex
  generalize CentralCache.spanPages (blockSize index) = numPages at *
  simp only [mmapReturns, Bool.and_eq_true, decide_eq_true_eq] at hmmap
  obtain ⟨⟨⟨-, hmemory⟩, hpage⟩, -⟩ := hmmap
  have hnew : ∀ q, ∀ a ∈ spanBlocks (memory, index), owner a ≠ some q :=
    fun q a ha hq => hold a q hq (hspan a ha)
  have hkeep : ∀ a p, owner a = some p →
      reown owner (spanBlocks (memory, index)) (.loose index) a = some p := by
    intro a p ha
    rw [reown_of_not_mem (fun hmem => hnew p a hmem ha), ha]
  refine ⟨?_, ?_, h.sizes, h.once, ?_, ?_, ?_, ?_⟩
  · refine h.lists.frame (fun _ => False) (fun _ _ => rfl) ?_ ?_ (fun _ hf => absurd hf id)
    · intro g a _ ha
      exact hmem a (hold a _ ha)
    · intro g a _
      exact reown_eq_iff (by simp) (hnew _) a
  · exact h.live_move (by simp) (fun _ => hnew _)
  · have hmapped : regions (s.pageCache.recordSpan memory numPages).mmapped =
        (memory, numPages * PAGE_SIZE) :: regions s.pageCache.mmapped := by
      rw [← hbytes, ← sizeOfPages_div_mul]
      rfl
    rw [hbytes] at hregions
    rw [hmapped]
    refine h.layout.carve (blockSize_pos index) hfit hregions ?_
    intro a m ha
    rcases Classical.em (a ∈ spanBlocks (memory, index)) with hin | hin
    · rw [reown_of_mem hin] at ha
      obtain ⟨k, -, hk, rfl⟩ := CentralCache.mem_blocks.mp hin
      rw [Nat.zero_add] at hk
      exact .inr ⟨(Option.some.inj ha).symm, k, hk, rfl⟩
    · rw [reown_of_not_mem hin] at ha
      exact .inl ha
  · intro a p ha
    rcases Classical.em (a ∈ spanBlocks (memory, index)) with hin | hin
    · obtain ⟨k, -, -, rfl⟩ := CentralCache.mem_blocks.mp hin
      refine ⟨CentralCache.block_ne_zero hmemory k _, ?_⟩
      rw [blockSize, ← Nat.mul_assoc, Nat.add_mul_mod_self_right]
      have hpages : ALIGNMENT ∣ PAGE_SIZE := by decide
      exact Nat.mod_eq_zero_of_dvd (Nat.dvd_trans hpages (Nat.dvd_of_mod_eq_zero hpage))
    · rw [reown_of_not_mem hin] at ha
      exact h.aligned a p ha
  · intro span hmem' a ha
    rcases List.mem_cons.mp hmem' with rfl | hmem'
    · exact ⟨_, reown_of_mem ha, rfl⟩
    · obtain ⟨p, hp, hindex⟩ := h.carved span hmem' a ha
      exact ⟨p, hkeep a p hp, hindex⟩
  · exact h.returns_move (by simp) (fun _ _ _ _ hcall => hcall)

/-- A user writes a word of a live block. -/
theorem write (h : PoolInv covers s owner) {b : Addr × Nat} (hb : b ∈ s.live) {addr : Addr}
    (haddr : b.1 ≤ addr ∧ addr < b.1 + blockSize (getIndex b.2)) (value : Addr) :
    PoolInv covers { s with mem := Function.update s.mem addr value } owner := by
  refine ⟨?_, h.live, h.sizes, h.once, h.layout, h.aligned, h.carved, h.returns⟩
  refine h.lists.frame (fun _ => False) (fun _ _ => rfl) ?_ (fun _ _ _ => Iff.rfl)
    (fun _ hf => absurd hf id)
  intro g a _ ha
  exact Function.update_of_ne (h.live_word_ne hb haddr ha) _ _

end PoolInv

end RainWebServer.Memory
