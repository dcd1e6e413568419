import Mathlib.Data.List.Nodup
import Mathlib.Logic.Function.Basic

/-!
# Doubly Linked Lists in a Memory

A small library for lists whose cells link forwards and backwards. A memory has the two links of
every cell, and a list is what lies between two cells, usually sentinels. Nothing here is about a
particular program.

## Main results

- `DoublyLinked.retarget` : a list whose last link is turned to another cell
- `DoublyLinked.insertBefore` : a cell joins at the end
- `DoublyLinked.unlink` : a cell leaves from anywhere
-/

namespace RainWebServer.Lib

variable {α : Type}

/-! ## §1 Links -/

/-- The links of the cells of a memory. -/
structure Links (α : Type) where
  next : α → Option α
  pre : α → Option α

namespace Links

variable [DecidableEq α]

/-- Write the forward link of a cell. -/
@[simps]
def setNext (m : Links α) (a : α) (b : Option α) : Links α :=
  { m with next := Function.update m.next a b }

/-- Write the backward link of a cell. -/
@[simps]
def setPre (m : Links α) (a : α) (b : Option α) : Links α :=
  { m with pre := Function.update m.pre a b }

/-- Link `y` in before `t`; `none` when `t` has nothing before it. -/
def insertBefore (m : Links α) (t y : α) : Option (Links α) :=
  let m := (m.setPre y (m.pre t)).setNext y (some t)
  (m.pre t).map fun p => (m.setNext p (some y)).setPre t (some y)

/-- Take `x` out from between its neighbours; nothing happens when it lacks one. -/
def unlink (m : Links α) (x : α) : Links α :=
  match m.pre x, m.next x with
  | some p, some n => ((m.setNext p (some n)).setPre n (some p)).setNext x none
  | _, _ => m

end Links

/-- Following `next` from `a` visits `xs` and arrives at `b`, and `pre` leads back. -/
def DoublyLinked (m : Links α) : α → List α → α → Prop
  | a, [], b => m.next a = some b ∧ m.pre b = some a
  | a, x :: xs, b => m.next a = some x ∧ m.pre x = some a ∧ DoublyLinked m x xs b

namespace DoublyLinked

variable {m m' : Links α} {a b c n p x : α} {xs ys : List α}

/-- The first cell after `a`. -/
theorem next_eq (h : DoublyLinked m a xs b) : m.next a = some (xs.head?.getD b) := by
  cases xs with
  | nil => exact h.1
  | cons x xs => exact h.1

/-- The last cell before `b`. -/
theorem pre_eq (h : DoublyLinked m a xs b) : m.pre b = some (xs.getLastD a) := by
  induction xs generalizing a with
  | nil => exact h.2
  | cons x xs ih =>
    rw [List.getLastD_cons]
    exact ih h.2.2

theorem append_iff :
    DoublyLinked m a (xs ++ x :: ys) b ↔ DoublyLinked m a xs x ∧ DoublyLinked m x ys b := by
  induction xs generalizing a with
  | nil => simp only [List.nil_append, DoublyLinked, and_assoc]
  | cons y xs ih => simp only [List.cons_append, DoublyLinked, ih, and_assoc]

/-- A list reads only the links between its own cells. -/
theorem congr (h : DoublyLinked m a xs b) (hnext : ∀ c ∈ a :: xs, m'.next c = m.next c)
    (hpre : ∀ c ∈ xs ++ [b], m'.pre c = m.pre c) : DoublyLinked m' a xs b := by
  induction xs generalizing a with
  | nil =>
    refine ⟨?_, ?_⟩
    · rw [hnext a List.mem_cons_self, h.1]
    · rw [hpre b (List.mem_singleton_self b), h.2]
  | cons x xs ih =>
    refine ⟨?_, ?_, ih h.2.2 (fun c hc => hnext c (List.mem_cons_of_mem _ hc))
      (fun c hc => hpre c (List.mem_cons_of_mem _ hc))⟩
    · rw [hnext a List.mem_cons_self, h.1]
    · rw [hpre x List.mem_cons_self, h.2.1]

/-- **The last link** is turned from `b` to another cell `n`. -/
theorem retarget (h : DoublyLinked m a xs b) (hnodup : (a :: xs).Nodup) (hp : xs.getLastD a = p)
    (hlast : m'.next p = some n) (hback : m'.pre n = some p)
    (hnext : ∀ c ∈ a :: xs, c ≠ p → m'.next c = m.next c)
    (hpre : ∀ c ∈ xs, m'.pre c = m.pre c) : DoublyLinked m' a xs n := by
  induction xs generalizing a with
  | nil =>
    have hap : a = p := hp
    exact hap ▸ ⟨hlast, hback⟩
  | cons x xs ih =>
    rw [List.getLastD_cons] at hp
    obtain ⟨hout, hrest⟩ := List.nodup_cons.mp hnodup
    have hne : a ≠ p := by
      rintro rfl
      exact hout (hp ▸ List.getLastD_mem_cons)
    refine ⟨?_, ?_, ih h.2.2 hrest hp (fun c hc => hnext c (List.mem_cons_of_mem _ hc))
      (fun c hc => hpre c (List.mem_cons_of_mem _ hc))⟩
    · rw [hnext a List.mem_cons_self hne, h.1]
    · rw [hpre x List.mem_cons_self, h.2.1]

/-! ## §2 Joining and leaving -/

variable [DecidableEq α]

/-- **A cell joins at the end.** The only cells that are written are those of the list, and it. -/
theorem insertBefore (h : DoublyLinked m a xs b) (hnodup : (a :: xs ++ [b]).Nodup)
    (hx : x ∉ a :: xs ++ [b]) :
    ∃ m', m.insertBefore b x = some m' ∧ DoublyLinked m' a (xs ++ [x]) b ∧
      (∀ c, c ≠ x → c ∉ a :: xs → m'.next c = m.next c) ∧
      (∀ c, c ≠ x → c ≠ b → m'.pre c = m.pre c) := by
  obtain ⟨hfront, -, hdisjoint⟩ := List.nodup_append.mp hnodup
  obtain ⟨p, hp⟩ : ∃ p, xs.getLastD a = p := ⟨_, rfl⟩
  have hpre : m.pre b = some p := hp ▸ h.pre_eq
  have hlast : p ∈ a :: xs := hp ▸ List.getLastD_mem_cons
  have hxb : x ≠ b := by
    rintro rfl
    exact hx (List.mem_append_right _ (List.mem_singleton_self x))
  have hxl : ∀ c ∈ a :: xs, c ≠ x := by
    rintro c hc rfl
    exact hx (List.mem_append_left _ hc)
  have hbl : ∀ c ∈ a :: xs, c ≠ b := fun c hc => hdisjoint c hc b (List.mem_singleton_self b)
  obtain ⟨m', hm'⟩ : ∃ m', m' = ((((m.setPre x (m.pre b)).setNext x (some b)).setNext
    p (some x)).setPre b (some x)) := ⟨_, rfl⟩
  refine ⟨m', ?_, append_iff.mpr ⟨?_, ?_⟩, fun c hcx hc => ?_, fun c hcx hcb => ?_⟩
  · rw [Links.insertBefore, hm']
    simp only [Links.setNext_pre, Links.setPre_pre, Function.update_of_ne hxb.symm, hpre]
    rfl
  · refine h.retarget hfront hp ?_ ?_ (fun c hc hcl => ?_) (fun c hc => ?_)
    · simp [hm']
    · simp [hm', hxb, hpre]
    · simp [hm', hcl, hxl c hc]
    · have hc' := List.mem_cons_of_mem a hc
      simp [hm', hbl c hc', hxl c hc']
  · refine ⟨?_, ?_⟩
    · simp [hm', (hxl _ hlast).symm]
    · simp [hm']
  · have hcp : c ≠ p := fun heq => hc (heq ▸ hlast)
    simp [hm', hcp, hcx]
  · simp [hm', hcb, hcx]

/-- **A cell leaves.** The only cells that are written are those of the list. -/
theorem unlink (h : DoublyLinked m a xs b) (hnodup : (a :: xs ++ [b]).Nodup) (hx : x ∈ xs) :
    DoublyLinked (m.unlink x) a (xs.erase x) b ∧ (m.unlink x).next x = none ∧
      (∀ c, c ∉ a :: xs → (m.unlink x).next c = m.next c) ∧
      (∀ c, c ∉ xs ++ [b] → (m.unlink x).pre c = m.pre c) := by
  obtain ⟨l₁, l₂, rfl⟩ := List.append_of_mem hx
  obtain ⟨hto, hfrom⟩ := append_iff.mp h
  have hsplit : (a :: l₁ ++ x :: (l₂ ++ [b])).Nodup := by simpa using hnodup
  obtain ⟨hleft, hright, hdisjoint⟩ := List.nodup_append.mp hsplit
  obtain ⟨hxr, hrest⟩ := List.nodup_cons.mp hright
  -- the neighbours of `x`
  obtain ⟨p, hp⟩ : ∃ p, l₁.getLastD a = p := ⟨_, rfl⟩
  obtain ⟨n, hn⟩ : ∃ n, l₂.head?.getD b = n := ⟨_, rfl⟩
  have hpl : p ∈ a :: l₁ := hp ▸ List.getLastD_mem_cons
  have hnr : n ∈ l₂ ++ [b] := by
    rw [← hn]
    cases l₂ with
    | nil => exact List.mem_singleton_self b
    | cons y l₂ => exact List.mem_cons_self
  have hlx : ∀ c ∈ a :: l₁, c ≠ x := fun c hc => hdisjoint c hc x List.mem_cons_self
  have hlr : ∀ c ∈ a :: l₁, ∀ d ∈ l₂ ++ [b], c ≠ d := fun c hc d hd =>
    hdisjoint c hc d (List.mem_cons_of_mem _ hd)
  obtain ⟨m', hm'⟩ : ∃ m', m' = ((m.setNext p (some n)).setPre n (some p)).setNext x none :=
    ⟨_, rfl⟩
  have hunlink : m.unlink x = m' := by
    rw [Links.unlink, hto.pre_eq, hfrom.next_eq, hp, hn, hm']
  -- what comes before `x` is now linked to what comes after it
  have hbefore : DoublyLinked m' a l₁ n := by
    refine hto.retarget hleft hp ?_ ?_ (fun c hc hcp => ?_) (fun c hc => ?_)
    · simp [hm', hlx _ hpl]
    · simp [hm']
    · simp [hm', hcp, hlx c hc]
    · simp [hm', hlr c (List.mem_cons_of_mem _ hc) _ hnr]
  have herase : (l₁ ++ x :: l₂).erase x = l₁ ++ l₂ := by
    have hout : x ∉ l₁ := fun hmem => hlx x (List.mem_cons_of_mem _ hmem) rfl
    rw [List.erase_append_right _ hout, List.erase_cons_head]
  rw [hunlink, herase]
  refine ⟨?_, by simp [hm'], fun c hc => ?_, fun c hc => ?_⟩
  · cases l₂ with
    | nil =>
      have hbn : b = n := hn
      rw [List.append_nil, hbn]
      exact hbefore
    | cons y l₂ =>
      have hyn : y = n := hn
      subst hyn
      have hy : y ∉ l₂ ++ [b] := (List.nodup_cons.mp hrest).1
      refine append_iff.mpr ⟨hbefore, hfrom.2.2.congr (fun c hc => ?_) (fun c hc => ?_)⟩
      · have hc' : c ∈ (y :: l₂) ++ [b] := List.mem_append_left _ hc
        have hcx : c ≠ x := fun heq => hxr (heq ▸ hc')
        simp [hm', hcx, (hlr _ hpl c hc').symm]
      · have hcy : c ≠ y := fun heq => hy (heq ▸ hc)
        simp [hm', hcy]
  · have hcp : c ≠ p := by
      rintro rfl
      exact hc (List.mem_append_left (x :: l₂) hpl)
    have hcx : c ≠ x := by
      rintro rfl
      exact hc (List.mem_cons_of_mem a hx)
    simp [hm', hcp, hcx]
  · have hcn : c ≠ n := by
      rintro rfl
      rw [List.append_assoc] at hc
      exact hc (List.mem_append_right l₁ (List.mem_cons_of_mem x hnr))
    simp [hm', hcn]

end DoublyLinked

end RainWebServer.Lib
