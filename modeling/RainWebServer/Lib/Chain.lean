import Mathlib.Data.List.Basic
import Mathlib.Data.List.Nodup
import Mathlib.Logic.Function.Basic

/-!
# Singly Linked Lists in a Memory, and Who Owns Their Cells

A small library for intrusive lists: the link of a cell is the content of a memory `α → α` at
the cell itself, and one address `null` ends every list.

- `Segment mem null h l t` : following the links from `h` visits `l` and arrives at `t`
- `Chain mem null h l` : a segment that ends in `null`

A chain is determined by its first address, and therefore never visits a cell twice. A family
of chains is kept apart by an `owner` function: a cell has at most one owner, so two chains
whose cells have different owners share none.

## Main results

- `Chain.unique`, `Chain.nodup` : chains are determined and acyclic
- `Chain.cut`, `Chain.splice` : the two ways to write one link of a chain
- `ChainsOwned.frame` : a family of chains after some of its chains were changed
-/

namespace RainWebServer.Lib

variable {α : Type}

/-! ## §1 Segments and chains -/

/-- Following the links from `h` visits `l` and arrives at `t`. -/
def Segment (mem : α → α) (null : α) : α → List α → α → Prop
  | h, [], t => h = t
  | h, a :: l, t => h = a ∧ a ≠ null ∧ Segment mem null (mem a) l t

/-- The list from `h`: a segment that ends in `null`. -/
def Chain (mem : α → α) (null h : α) (l : List α) : Prop := Segment mem null h l null

section Chains

variable {mem mem' : α → α} {null h t a : α} {l l₁ l₂ : List α}

theorem segment_append :
    Segment mem null h (l₁ ++ l₂) t ↔
      ∃ m, Segment mem null h l₁ m ∧ Segment mem null m l₂ t := by
  induction l₁ generalizing h with
  | nil => simp [Segment]
  | cons a l₁ ih => simp [Segment, ih, and_assoc]

/-- A segment reads only the links of its own cells. -/
theorem Segment.congr (hseg : Segment mem null h l t) (hmem : ∀ a ∈ l, mem' a = mem a) :
    Segment mem' null h l t := by
  induction l generalizing h with
  | nil => exact hseg
  | cons a l ih =>
    obtain ⟨rfl, hne, hrest⟩ := hseg
    refine ⟨rfl, hne, ?_⟩
    rw [hmem h List.mem_cons_self]
    exact ih hrest (fun b hb => hmem b (List.mem_cons_of_mem _ hb))

theorem Chain.congr (hchain : Chain mem null h l) (hmem : ∀ a ∈ l, mem' a = mem a) :
    Chain mem' null h l :=
  Segment.congr hchain hmem

theorem Segment.ne_null (hseg : Segment mem null h l t) (ha : a ∈ l) : a ≠ null := by
  induction l generalizing h with
  | nil => cases ha
  | cons b l ih =>
    obtain ⟨rfl, hne, hrest⟩ := hseg
    rcases List.mem_cons.mp ha with rfl | ha
    · exact hne
    · exact ih hrest ha

@[simp] theorem chain_nil : Chain mem null h [] ↔ h = null := Iff.rfl

@[simp] theorem chain_cons :
    Chain mem null h (a :: l) ↔ h = a ∧ a ≠ null ∧ Chain mem null (mem a) l := Iff.rfl

/-- The chain from `null` is empty. -/
theorem Chain.eq_nil (hchain : Chain mem null null l) : l = [] := by
  cases l with
  | nil => rfl
  | cons a l => exact absurd hchain.1.symm hchain.2.1

/-- A chain that does not start at `null` starts with its first cell. -/
theorem Chain.exists_cons (hchain : Chain mem null h l) (hne : h ≠ null) :
    ∃ rest, l = h :: rest ∧ Chain mem null (mem h) rest := by
  cases l with
  | nil => exact absurd hchain hne
  | cons a rest =>
    obtain ⟨rfl, -, hrest⟩ := hchain
    exact ⟨rest, rfl, hrest⟩

/-- The part of a chain from one of its cells on. -/
theorem Chain.suffix (hchain : Chain mem null h (l₁ ++ a :: l₂)) :
    Chain mem null a (a :: l₂) := by
  obtain ⟨m, -, rfl, hne, hrest⟩ := segment_append.mp hchain
  exact ⟨rfl, hne, hrest⟩

/-- A chain is determined by where it starts. -/
theorem Chain.unique (hchain : Chain mem null h l₁) (hchain' : Chain mem null h l₂) :
    l₁ = l₂ := by
  induction l₁ generalizing h l₂ with
  | nil =>
    cases l₂ with
    | nil => rfl
    | cons b l₂ => exact absurd (hchain'.1.symm.trans hchain) hchain'.2.1
  | cons a l₁ ih =>
    obtain ⟨rfl, hne, hrest⟩ := hchain
    obtain ⟨rest, rfl, hrest'⟩ := hchain'.exists_cons hne
    rw [ih hrest hrest']

/-- A cell of a chain is its first one or linked from another one. -/
theorem Chain.mem_cases (hchain : Chain mem null h l) (ha : a ∈ l) :
    a = h ∨ ∃ b ∈ l, mem b = a := by
  induction l generalizing h with
  | nil => cases ha
  | cons b l ih =>
    obtain ⟨rfl, -, hrest⟩ := hchain
    rcases List.mem_cons.mp ha with rfl | ha
    · exact .inl rfl
    · rcases ih hrest ha with rfl | ⟨c, hc, hlink⟩
      · exact .inr ⟨h, List.mem_cons_self, rfl⟩
      · exact .inr ⟨c, List.mem_cons_of_mem _ hc, hlink⟩

/-- A chain visits no cell twice: it would continue from both visits in the same way. -/
theorem Chain.nodup (hchain : Chain mem null h l) : l.Nodup := by
  induction l generalizing h with
  | nil => exact List.nodup_nil
  | cons a l ih =>
    refine List.nodup_cons.mpr ⟨?_, ih hchain.2.2⟩
    intro hmem
    obtain ⟨l₁, l₂, rfl⟩ := List.append_of_mem hmem
    rw [← List.cons_append] at hchain
    have hsuffix := hchain.suffix
    rw [hchain.1] at hchain
    have hlength := congrArg List.length (hchain.unique hsuffix)
    simp at hlength
    omega

/-- The cells before and after a cell of a chain differ from it. -/
theorem Chain.not_mem_split (hchain : Chain mem null h (l₁ ++ a :: l₂)) : a ∉ l₁ ∧ a ∉ l₂ := by
  have hnodup := hchain.nodup
  rw [List.nodup_append, List.nodup_cons] at hnodup
  obtain ⟨-, ⟨hl₂, -⟩, hdisjoint⟩ := hnodup
  exact ⟨fun hmem => hdisjoint a hmem a List.mem_cons_self rfl, hl₂⟩

/-- The segment of a chain up to one of its cells. -/
theorem Chain.segment (hchain : Chain mem null h (l₁ ++ a :: l₂)) :
    Segment mem null h (l₁ ++ [a]) (mem a) := by
  obtain ⟨m, hl₁, hrest⟩ := segment_append.mp hchain
  exact segment_append.mpr ⟨m, hl₁, hrest.1, hrest.2.1, rfl⟩

end Chains

/-! ## §2 Writing one link -/

section Writes

variable [DecidableEq α] {mem : α → α} {null h a c : α} {l l₁ l₂ : List α}

/-- Writing the link of the last cell of a segment redirects its end. -/
theorem Segment.update_last {t t' : α} (hseg : Segment mem null h (l ++ [a]) t) (ha : a ∉ l) :
    Segment (Function.update mem a t') null h (l ++ [a]) t' := by
  obtain ⟨m, hl, hlast⟩ := segment_append.mp hseg
  obtain ⟨rfl, hne, -⟩ := hlast
  refine segment_append.mpr ⟨m, ?_, rfl, hne, Function.update_self _ _ _⟩
  apply hl.congr
  intro b hb
  apply Function.update_of_ne
  rintro rfl
  exact ha hb

/-- Ending a chain at one of its cells leaves two chains. -/
theorem Chain.cut (hchain : Chain mem null h (l₁ ++ a :: l₂)) :
    Chain (Function.update mem a null) null h (l₁ ++ [a]) ∧
    Chain (Function.update mem a null) null (mem a) l₂ := by
  obtain ⟨hl₁, hl₂⟩ := hchain.not_mem_split
  refine ⟨hchain.segment.update_last hl₁, Chain.congr hchain.suffix.2.2 ?_⟩
  intro b hb
  apply Function.update_of_ne
  rintro rfl
  exact hl₂ hb

/-- Redirecting a chain, at one of its cells, to another chain that does not visit that cell. -/
theorem Chain.splice (hchain : Chain mem null h (l₁ ++ a :: l₂)) (hc : Chain mem null c l)
    (ha : a ∉ l) : Chain (Function.update mem a c) null h (l₁ ++ [a] ++ l) := by
  refine segment_append.mpr ⟨c, hchain.segment.update_last hchain.not_mem_split.1, ?_⟩
  apply Segment.congr hc
  intro b hb
  apply Function.update_of_ne
  rintro rfl
  exact ha hb

end Writes

/-! ## §3 Families of chains -/

/-- Every list of the family `head` is a chain, and its cells are those it owns. The owner of a
    cell is a `P`, of which the lists are some. -/
def ChainsOwned {F P : Type} (mem : α → α) (null : α) (head : F → α) (place : F → P)
    (owner : α → Option P) : Prop :=
  ∀ f, ∃ l, Chain mem null (head f) l ∧ ∀ a, a ∈ l ↔ owner a = some (place f)

section Families

variable {F P : Type} {mem mem' : α → α} {null : α} {head head' : F → α} {place : F → P}
  {owner owner' : α → Option P}

/-- Lists that are not touched keep their cells; for the others a new chain is given. -/
theorem ChainsOwned.frame (h : ChainsOwned mem null head place owner) (touched : F → Prop)
    (hhead : ∀ f, ¬touched f → head' f = head f)
    (hmem : ∀ f a, ¬touched f → owner a = some (place f) → mem' a = mem a)
    (howner : ∀ f a, ¬touched f → (owner' a = some (place f) ↔ owner a = some (place f)))
    (hnew : ∀ f, touched f →
      ∃ l, Chain mem' null (head' f) l ∧ ∀ a, a ∈ l ↔ owner' a = some (place f)) :
    ChainsOwned mem' null head' place owner' := by
  intro f
  rcases Classical.em (touched f) with hf | hf
  · exact hnew f hf
  · obtain ⟨l, hchain, howned⟩ := h f
    refine ⟨l, ?_, fun a => (howned a).trans (howner f a hf).symm⟩
    rw [hhead f hf]
    exact hchain.congr (fun a ha => hmem f a hf ((howned a).mp ha))

/-- The cells of a list are those it owns. -/
theorem ChainsOwned.mem_iff (h : ChainsOwned mem null head place owner) {f : F} {l : List α}
    (hchain : Chain mem null (head f) l) (a : α) : a ∈ l ↔ owner a = some (place f) := by
  obtain ⟨l', hchain', howned⟩ := h f
  rw [hchain.unique hchain']
  exact howned a

end Families

end RainWebServer.Lib
