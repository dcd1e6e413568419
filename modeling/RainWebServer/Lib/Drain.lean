import RainWebServer.Lib.Machine

/-!
# Machines That Drain

A small library for programs whose threads make calls that wait for each other. An action starts
a call, or it goes on with one; every thread has a rank, which is zero when it is in no call. The
library names nothing of any particular program.

## Main results

- `Drains.count_le_of_quiet` : in a run in which a thread starts no call, it takes at most as many
  steps as its rank says
- `Drains.finishes` : and there is one in which all calls end
-/

namespace RainWebServer.Lib

namespace Machine

variable {σ α T : Type}

/-- Between states that satisfy `I`, an action that goes on with a call (`actor` says whose) lowers
    the rank of its thread and of no other; and while a thread is in a call, some thread can go
    on. -/
structure Drains [DecidableEq T] (M : Machine σ α) (I : σ → Prop) (actor : α → Option T)
    (rank : σ → T → Nat) : Prop where
  keeps : ∀ s a s', I s → M.enabled s a = true → M.step s a = some s' → I s'
  lowers : ∀ s a s' t, I s → actor a = some t → M.enabled s a = true → M.step s a = some s' →
    rank s' t < rank s t ∧ ∀ u, u ≠ t → rank s' u = rank s u
  goes : ∀ s t, I s → 0 < rank s t → ∃ a u s', actor a = some u ∧ M.enabled s a = true ∧
    M.step s a = some s'

variable [DecidableEq T] {M : Machine σ α} {I : σ → Prop} {actor : α → Option T}
  {rank : σ → T → Nat}

/-- **Whatever the schedule**: if the actions that go on with no call do not raise the rank of a
    thread, then the steps that it takes count against its rank. -/
theorem Drains.count_le_of_quiet (h : M.Drains I actor rank) {s s' : σ} {as : List α} (hI : I s)
    (hrun : M.Reaches s as s') (t : T)
    (hquiet : ∀ a ∈ as, actor a = none → ∀ u v, I u → M.enabled u a = true → M.step u a = some v →
      rank v t ≤ rank u t) :
    rank s' t + as.countP (fun a => actor a = some t) ≤ rank s t := by
  have hall : I s' ∧ rank s' t + as.countP (fun a => actor a = some t) ≤ rank s t := by
    induction hrun with
    | refl => exact ⟨hI, Nat.le_refl _⟩
    | @snoc as u v a _ he hs ih =>
      obtain ⟨hIu, hle⟩ := ih fun b hb => hquiet b (List.mem_append_left _ hb)
      refine ⟨h.keeps u a v hIu he hs, ?_⟩
      rw [List.countP_append, List.countP_singleton]
      cases hw : actor a with
      | none =>
        have hsame := hquiet a (List.mem_append_right _ (List.mem_singleton_self a)) hw u v hIu
          he hs
        rw [if_neg (by simp)]
        omega
      | some w =>
        obtain ⟨hless, hsame⟩ := h.lowers u a v w hIu hw he hs
        by_cases hwt : w = t
        · subst hwt
          rw [if_pos (by simp)]
          omega
        · rw [if_neg (by simpa using hwt), hsame t (Ne.symm hwt)]
          omega
  exact hall.2

/-- The ranks of the threads in a list, taken together. -/
def totalRank (rank : T → Nat) (ts : List T) : Nat := ts.foldr (fun t n => rank t + n) 0

omit [DecidableEq T] in
theorem totalRank_le {r r' : T → Nat} {ts : List T} (h : ∀ t, r' t ≤ r t) :
    totalRank r' ts ≤ totalRank r ts := by
  induction ts with
  | nil => exact Nat.le_refl 0
  | cons t ts ih => exact Nat.add_le_add (h t) ih

omit [DecidableEq T] in
/-- One smaller rank makes the total smaller. -/
theorem totalRank_lt {r r' : T → Nat} {ts : List T} (h : ∀ t, r' t ≤ r t) {u : T} (hu : u ∈ ts)
    (hless : r' u < r u) : totalRank r' ts < totalRank r ts := by
  induction ts with
  | nil => cases hu
  | cons t ts ih =>
    rcases List.mem_cons.mp hu with rfl | hu
    · exact Nat.add_lt_add_of_lt_of_le hless (totalRank_le h)
    · exact Nat.add_lt_add_of_le_of_lt (h t) (ih hu)

/-- **All calls can end** without another call, if only finitely many threads are in one. -/
theorem Drains.finishes (h : M.Drains I actor rank) {s : σ} (hI : I s) {ts : List T}
    (hts : ∀ t, 0 < rank s t → t ∈ ts) :
    ∃ as s', M.Reaches s as s' ∧ (∀ a ∈ as, (actor a).isSome = true) ∧ ∀ t, rank s' t = 0 := by
  -- every step makes the total smaller
  induction hn : totalRank (rank s) ts using Nat.strongRecOn generalizing s with
  | ind n ih =>
    by_cases hidle : ∀ t, rank s t = 0
    · exact ⟨[], s, .refl, nofun, hidle⟩
    · obtain ⟨t, ht⟩ := not_forall.mp hidle
      obtain ⟨a, u, v, hactor, he, hs⟩ := h.goes s t hI (Nat.pos_of_ne_zero ht)
      obtain ⟨hless, hsame⟩ := h.lowers s a v u hI hactor he hs
      have hle : ∀ w, rank v w ≤ rank s w := by
        intro w
        by_cases hw : w = u
        · exact hw ▸ Nat.le_of_lt hless
        · exact Nat.le_of_eq (hsame w hw)
      have hu : u ∈ ts := hts u (Nat.zero_lt_of_lt hless)
      obtain ⟨as, s', hrun, hall, hzero⟩ := ih _ (hn ▸ totalRank_lt hle hu hless)
        (h.keeps s a v hI he hs) (fun w hw => hts w (Nat.lt_of_lt_of_le hw (hle w))) rfl
      refine ⟨a :: as, s', .cons he hs hrun, ?_, hzero⟩
      intro b hb
      rcases List.mem_cons.mp hb with rfl | hb
      · rw [hactor]
        rfl
      · exact hall b hb

end Machine

end RainWebServer.Lib
