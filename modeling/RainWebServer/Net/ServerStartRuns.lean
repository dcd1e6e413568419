import RainWebServer.Lib.Drain
import RainWebServer.Net.ServerStart

/-!
# TcpServer: Every Start

Follows the starting server of `ServerStart` through every interleaving of the threads that call
`start`, the threads of the pool and the base loop. `start` and the handshake of every `startLoop`
together go through the stages of `Inv`: `started_` is tested by one call at a time, so one thread
at most is past it, and the place of that thread says what the pool has.

## Main results

- `start_listens_once` : the server listens at most once, and only when every loop of the pool has
  been published and is not gone
- `start_finishes` : whatever has happened since the first call, `start` can go on to its end, and
  the steps that it and the new threads take are bounded
-/

namespace RainWebServer.Net

open RainWebServer.Lib

variable {F T : Type}

namespace ServerStart

variable [DecidableEq T]

/-! ## §1 The invariant -/

/-- How often `listen` has been given to the base loop. -/
def handed (s : ServerStart F T) : Nat := s.loop_.given.count .listen

/-- The pool when a thread is at this place of `start`. -/
def AtPc (s : ServerStart F T) : StartPc → Prop
  | .making i => i ≤ s.numThreads_ ∧ s.threads_.length = i ∧ s.loops_ = List.range i
  | .waiting i t => t = i ∧ i < s.numThreads_ ∧ s.threads_.length = i + 1 ∧
    s.loops_ = List.range i ∧ ∀ thread, s.threads_[t]? = some thread → thread.returned = false
  | .listening => s.threads_.length = s.numThreads_ ∧ s.loops_ = List.range s.numThreads_

/-- `start` has not been called yet. -/
structure Fresh (s : ServerStart F T) : Prop where
  calls : s.calls = 0
  starting : s.starting = fun _ => none
  threads : s.threads_ = []
  loops : s.loops_ = []
  handed : s.handed = 0

/-- The thread `c` is in `start`, and no other one. -/
structure Inside (s : ServerStart F T) (c : Caller T) (pc : StartPc) : Prop where
  calls : 0 < s.calls
  starting : s.starting = Function.update (fun _ => none) c (some pc)
  at_pc : s.AtPc pc
  handed : s.handed = 0

/-- `start` has ended for the thread that got through. -/
structure Done (s : ServerStart F T) : Prop where
  calls : 0 < s.calls
  starting : s.starting = fun _ => none
  threads : s.threads_.length = s.numThreads_
  loops : s.loops_ = List.range s.numThreads_
  handed : s.handed = 1

/-- The invariant of the starting server. -/
structure Inv (s : ServerStart F T) : Prop where
  base : EventLoopInv s.loop_
  /-- A thread in `start` has no other call to end. -/
  idle : ∀ t, s.starting (.external t) ≠ none → s.loop_.external t = .idle
  counter : s.started_ = BitVec.ofNat 32 s.calls
  few : s.calls < 2 ^ 32
  up : ∀ thread ∈ s.threads_, thread.Up
  published : ∀ t ∈ s.loops_, ∀ thread, s.threads_[t]? = some thread →
    thread.thread.hasPublished = true
  stage : s.Fresh ∨ (∃ c pc, s.Inside c pc) ∨ s.Done

theorem inv_new (numThreads : Nat) (callback : Bool) :
    Inv (new numThreads callback : ServerStart F T) where
  base := eventLoopInv_invariant.init
  idle _ hne := absurd rfl hne
  counter := rfl
  few := by
    have hzero : (new numThreads callback : ServerStart F T).calls = 0 := rfl
    rw [hzero]
    decide
  up _ hmem := by cases hmem
  published _ hmem := by cases hmem
  stage := .inl ⟨rfl, rfl, rfl, rfl, rfl⟩

/-- `started_` is 0 before the first call only. -/
theorem Inv.started_eq_zero_iff {s : ServerStart F T} (h : s.Inv) :
    s.started_ = 0 ↔ s.calls = 0 := by
  rw [h.counter, ← BitVec.toNat_inj, BitVec.toNat_ofNat, Nat.mod_eq_of_lt h.few]
  rfl

/-- A call of `start`. -/
theorem Inv.start {s : ServerStart F T} (h : s.Inv) {caller : Caller T}
    (he : machine.enabled s (.start caller) = true) : (s.start caller).Inv := by
  have he' : s.enabled (.start caller) = true := he
  simp only [enabled, Bool.and_eq_true, decide_eq_true_eq] at he'
  obtain ⟨⟨-, hmay⟩, hfew⟩ := he'
  have hcounter : s.started_ + 1 = BitVec.ofNat 32 (s.calls + 1) := by
    rw [h.counter]
    exact (BitVec.ofNat_add s.calls 1).symm
  rcases h.stage with hfresh | hinside | hdone
  · -- the first call goes through
    have hzero : s.started_ = 0 := h.started_eq_zero_iff.mpr hfresh.calls
    rw [ServerStart.start, if_pos hzero]
    refine ⟨h.base, fun t hne => ?_, hcounter, hfew, h.up, h.published,
      .inr (.inl ⟨caller, .making 0, ?_⟩)⟩
    · simp only [setStarting, hfresh.starting, Function.update_apply] at hne ⊢
      split at hne
      · rename_i hcaller
        rw [← hcaller] at hmay
        simpa [mayStart, EventLoop.mayCall] using hmay
      · exact absurd rfl hne
    · refine ⟨Nat.succ_pos _, ?_, ⟨Nat.zero_le _, ?_, ?_⟩, hfresh.handed⟩
      · rw [setStarting, hfresh.starting]
      · simp [setStarting, hfresh.threads]
      · simp [setStarting, hfresh.loops]
  · obtain ⟨c, pc, hinside⟩ := hinside
    have hone : s.started_ ≠ 0 := fun hzero =>
      absurd (h.started_eq_zero_iff.mp hzero) (Nat.ne_of_gt hinside.calls)
    rw [ServerStart.start, if_neg hone]
    refine ⟨h.base, h.idle, hcounter, hfew, h.up, h.published, .inr (.inl ⟨c, pc, ?_⟩)⟩
    refine ⟨Nat.succ_pos _, hinside.starting, ?_, hinside.handed⟩
    cases pc with
    | _ => exact hinside.at_pc
  · have hone : s.started_ ≠ 0 := fun hzero =>
      absurd (h.started_eq_zero_iff.mp hzero) (Nat.ne_of_gt hdone.calls)
    rw [ServerStart.start, if_neg hone]
    exact ⟨h.base, h.idle, hcounter, hfew, h.up, h.published,
      .inr (.inr ⟨Nat.succ_pos _, hdone.starting, hdone.threads, hdone.loops, hdone.handed⟩)⟩

/-- A thread that is in `start` is the one that got through. -/
theorem Inv.inside {s : ServerStart F T} (h : s.Inv) {caller : Caller T} {pc : StartPc}
    (hpc : s.starting caller = some pc) : s.Inside caller pc := by
  rcases h.stage with hfresh | hinside | hdone
  · rw [hfresh.starting] at hpc
    cases hpc
  · obtain ⟨c, pc', hinside⟩ := hinside
    rw [hinside.starting, Function.update_apply] at hpc
    split at hpc
    · rename_i heq
      cases hpc
      rw [heq]
      exact hinside
    · cases hpc
  · rw [hdone.starting] at hpc
    cases hpc

omit [DecidableEq T] in
/-- A thread of a pool in which `u` has taken the place of one. -/
theorem of_getElem?_set {threads : List (EventLoopThread F T)} {t w : Nat}
    {u v : EventLoopThread F T} (h : (threads.set t u)[w]? = some v) :
    (t = w ∧ v = u) ∨ (t ≠ w ∧ threads[w]? = some v) := by
  rw [List.getElem?_set] at h
  split at h
  · rename_i heq
    split at h
    · cases h
      exact .inl ⟨heq, rfl⟩
    · cases h
  · rename_i hne
    exact .inr ⟨hne, h⟩

/-- A thread of the pool changes, and is up still. -/
theorem Inv.setThread {s : ServerStart F T} (h : s.Inv) {t : Nat} {thread u : EventLoopThread F T}
    (hthread : s.threads_[t]? = some thread) (hup : u.Up)
    (hpublished : thread.thread.hasPublished = true → u.thread.hasPublished = true)
    (hreturned : u.returned = thread.returned) :
    { s with threads_ := s.threads_.set t u }.Inv where
  base := h.base
  idle := h.idle
  counter := h.counter
  few := h.few
  up v hv := by
    rcases List.mem_or_eq_of_mem_set hv with hv | rfl
    · exact h.up v hv
    · exact hup
  published w hw v hv := by
    rcases of_getElem?_set hv with ⟨heq, rfl⟩ | ⟨-, hv⟩
    · exact hpublished (h.published w hw thread (heq ▸ hthread))
    · exact h.published w hw v hv
  stage := by
    rcases h.stage with hfresh | hinside | hdone
    · -- there is no thread yet
      rw [hfresh.threads] at hthread
      cases hthread
    · obtain ⟨c, pc, hinside⟩ := hinside
      have hat := hinside.at_pc
      refine .inr (.inl ⟨c, pc, hinside.calls, hinside.starting, ?_, hinside.handed⟩)
      cases pc with
      | making i => exact ⟨hat.1, by simpa using hat.2.1, hat.2.2⟩
      | waiting i w =>
        obtain ⟨hw, hi, hlen, hloops, hnot⟩ := hat
        refine ⟨hw, hi, by simpa using hlen, hloops, fun v hv => ?_⟩
        rcases of_getElem?_set hv with ⟨heq, rfl⟩ | ⟨-, hv⟩
        · -- the thread that `startLoop` waits for
          rw [hreturned]
          exact hnot thread (heq ▸ hthread)
        · exact hnot v hv
      | listening => exact ⟨by simpa using hat.1, hat.2⟩
    · exact .inr (.inr ⟨hdone.calls, hdone.starting, by simpa using hdone.threads, hdone.loops,
        hdone.handed⟩)

/-- The next place of the thread that is in `start`. -/
theorem Inv.moved {s u : ServerStart F T} (h : s.Inv) {caller : Caller T} {pc pc' : StartPc}
    (hpc : s.starting caller = some pc)
    (hstarting : u.starting = Function.update s.starting caller (some pc'))
    (hloop : u.loop_ = s.loop_) (hcounter : u.started_ = s.started_) (hcalls : u.calls = s.calls)
    (hup : ∀ thread ∈ u.threads_, thread.Up)
    (hpublished : ∀ t ∈ u.loops_, ∀ thread, u.threads_[t]? = some thread →
      thread.thread.hasPublished = true) (hat : u.AtPc pc') : u.Inv := by
  have hinside := h.inside hpc
  refine ⟨hloop ▸ h.base, fun t hne => ?_, ?_, ?_, hup, hpublished,
    .inr (.inl ⟨caller, pc', ?_, ?_, hat, ?_⟩)⟩
  · rw [hloop]
    refine h.idle t ?_
    rw [hstarting, Function.update_apply] at hne
    split at hne
    · rename_i heq
      rw [heq, hpc]
      exact Option.some_ne_none pc
    · exact hne
  · rw [hcounter, hcalls, h.counter]
  · rw [hcalls]
    exact h.few
  · rw [hcalls]
    exact hinside.calls
  · rw [hstarting, hinside.starting, Function.update_idem]
  · rw [handed, hloop]
    exact hinside.handed

/-! ## §2 What is left to be done -/

/-- The pieces of `start` that are left to a thread at this place. -/
def piecesLeft (numThreads : Nat) : StartPc → Nat
  | .making i => 2 * (numThreads - i) + 2
  | .waiting i _ => 2 * (numThreads - i) + 1
  | .listening => 1

/-- The pieces that are left to a thread in `start`, and to a thread of the pool, which may not
    have been made yet, before it enters its loop. -/
def rank (s : ServerStart F T) : Caller T ⊕ Nat → Nat
  | .inl caller => ((s.starting caller).map (piecesLeft s.numThreads_)).getD 0
  | .inr t => match s.threads_[t]? with
    | some thread => EventLoopThread.toGo thread.thread
    | none => if t < s.numThreads_ then 4 else 0

/-- The action is a piece of `start` or of `threadFunc`. -/
def actor : StartAct F T → Option (Caller T ⊕ Nat)
  | .next caller => some (.inl caller)
  | .threadFunc t => some (.inr t)
  | _ => none

/-- One thread has gone on in its part of the start, and no other one has. -/
structure Ahead (s u : ServerStart F T) (a : Caller T ⊕ Nat) : Prop where
  inv : u.Inv
  less : u.rank a < s.rank a
  same : ∀ b, b ≠ a → u.rank b = s.rank b

/-- A thread that moves on from one place of `start` to the next. -/
theorem Ahead.of_update {s u : ServerStart F T} {caller : Caller T} {pc : StartPc}
    {pc' : Option StartPc} (hinv : u.Inv) (hnum : u.numThreads_ = s.numThreads_)
    (hpc : s.starting caller = some pc)
    (hstarting : u.starting = Function.update s.starting caller pc')
    (hless : (pc'.map (piecesLeft s.numThreads_)).getD 0 < piecesLeft s.numThreads_ pc)
    (hthreads : ∀ t, u.rank (.inr t) = s.rank (.inr t)) : Ahead s u (.inl caller) := by
  refine ⟨hinv, ?_, fun b hb => ?_⟩
  · simp only [rank, hstarting, Function.update_self, hnum, hpc, Option.map_some, Option.getD_some]
    exact hless
  · cases b with
    | inl c =>
      have hc : c ≠ caller := fun heq => hb (heq ▸ rfl)
      simp only [rank, hstarting, Function.update_of_ne hc, hnum]
    | inr t => exact hthreads t

omit [DecidableEq T] in
/-- The first thread that has not been made has as much to do as one that has just been. -/
theorem rank_inr_append {s u : ServerStart F T} {t : EventLoopThread F T}
    (hnum : u.numThreads_ = s.numThreads_) (hthreads : u.threads_ = s.threads_ ++ [t])
    (hlt : s.threads_.length < s.numThreads_) (ht : t.thread = .started) (w : Nat) :
    u.rank (.inr w) = s.rank (.inr w) := by
  simp only [rank, hthreads, hnum]
  rcases Nat.lt_trichotomy w s.threads_.length with hw | rfl | hw
  · rw [List.getElem?_append_left hw]
  · rw [List.getElem?_concat_length, List.getElem?_eq_none (Nat.le_refl _)]
    simp [ht, EventLoopThread.toGo, hlt]
  · have hlen : (s.threads_ ++ [t]).length ≤ w := by
      rw [List.length_append]
      exact hw
    rw [List.getElem?_eq_none hlen, List.getElem?_eq_none (Nat.le_of_lt hw)]

omit [DecidableEq T] in
/-- A thread that stays where it is has as much to do as before. -/
theorem rank_inr_set {s u : ServerStart F T} {t : Nat} {thread v : EventLoopThread F T}
    (hnum : u.numThreads_ = s.numThreads_) (hthread : s.threads_[t]? = some thread)
    (hthreads : u.threads_ = s.threads_.set t v) (hsame : v.thread = thread.thread) (w : Nat) :
    u.rank (.inr w) = s.rank (.inr w) := by
  simp only [rank, hthreads, hnum]
  by_cases hw : t = w
  · subst hw
    rw [List.getElem?_set_self (List.getElem?_eq_some_iff.mp hthread).1, hthread]
    simp only [hsame]
  · rw [List.getElem?_set_ne hw]

/-- One more thread is made, and started. -/
theorem Inv.next_making {s : ServerStart F T} (h : s.Inv) {caller : Caller T} {i : Nat}
    (hpc : s.starting caller = some (.making i)) (hi : i < s.numThreads_) :
    ∃ u, s.next caller = some u ∧ Ahead s u (.inl caller) := by
  obtain ⟨-, hlen, hloops⟩ := (h.inside hpc).at_pc
  obtain ⟨t, ht, htup, htstarted, htnot⟩ :=
    EventLoopThread.up_start (F := F) (T := T) s.threadInitCallback_
  refine ⟨{ s with threads_ := s.threads_ ++ [t] }.setStarting caller
    (some (.waiting i s.threads_.length)), ?_, ?_⟩
  · rw [ServerStart.next, hpc]
    simp only [if_pos hi, stepThread, setStarting, List.getElem?_concat_length, ht,
      Option.map_some, List.set_append_right _ _ (Nat.le_refl _), Nat.sub_self,
      List.set_cons_zero]
  · refine .of_update (h.moved hpc rfl rfl rfl rfl ?_ ?_ ?_) rfl hpc rfl ?_
      (rank_inr_append rfl rfl (hlen ▸ hi) htstarted)
    · intro v hv
      rcases List.mem_append.mp hv with hv | hv
      · exact h.up v hv
      · rw [List.mem_singleton.mp hv]
        exact htup
    · -- the loops published so far are those of the threads before
      intro w hw v hv
      have hlt : w < s.threads_.length := by
        have hmem : w ∈ s.loops_ := hw
        rw [hloops, List.mem_range, ← hlen] at hmem
        exact hmem
      refine h.published w hw v ?_
      rw [← hv]
      exact (List.getElem?_append_left hlt).symm
    · refine ⟨hlen, hi, ?_, hloops, fun v hv => ?_⟩
      · simp [setStarting, hlen]
      · simp only [setStarting, List.getElem?_concat_length] at hv
        cases hv
        exact htnot
    · simp [piecesLeft]

/-- All threads have been made. -/
theorem Inv.next_made {s : ServerStart F T} (h : s.Inv) {caller : Caller T} {i : Nat}
    (hpc : s.starting caller = some (.making i)) (hi : ¬i < s.numThreads_) :
    ∃ u, s.next caller = some u ∧ Ahead s u (.inl caller) := by
  obtain ⟨hle, hlen, hloops⟩ := (h.inside hpc).at_pc
  obtain rfl : i = s.numThreads_ := Nat.le_antisymm hle (Nat.not_lt.mp hi)
  refine ⟨s.setStarting caller (some .listening), ?_, ?_⟩
  · rw [ServerStart.next, hpc]
    exact if_neg hi
  · refine .of_update (h.moved hpc rfl rfl rfl rfl h.up h.published ⟨hlen, hloops⟩) rfl hpc rfl ?_
      (fun _ => rfl)
    simp [piecesLeft]

/-- `loop_` of the new thread is not null, and `startLoop` returns it. -/
theorem Inv.next_waiting {s : ServerStart F T} (h : s.Inv) {caller : Caller T} {i t : Nat}
    (hpc : s.starting caller = some (.waiting i t)) {thread : EventLoopThread F T}
    (hthread : s.threads_[t]? = some thread) (hloop : thread.loop_ = true) :
    ∃ u, s.next caller = some u ∧ Ahead s u (.inl caller) := by
  obtain ⟨rfl, hi, hlen, hloops, -⟩ := (h.inside hpc).at_pc
  have hup := h.up thread (List.mem_of_getElem? hthread)
  obtain ⟨v, hv, hvup, hvsame, -⟩ := hup.startLoopReturns
  refine ⟨{ s with
    threads_ := s.threads_.set t v
    loops_ := s.loops_ ++ [t] }.setStarting caller (some (.making (t + 1))), ?_, ?_⟩
  · rw [ServerStart.next, hpc]
    simp only [stepThread, setStarting, hthread, hv, Option.map_some]
  · refine .of_update (h.moved hpc rfl rfl rfl rfl ?_ ?_ ⟨hi, ?_, ?_⟩) rfl hpc rfl ?_
      (rank_inr_set rfl hthread rfl hvsame)
    · intro w hw
      rcases List.mem_or_eq_of_mem_set hw with hw | rfl
      · exact h.up w hw
      · exact hvup
    · intro w hw x hx
      rcases of_getElem?_set hx with ⟨-, rfl⟩ | ⟨hne, hx⟩
      · -- the thread whose loop has been returned
        rw [hvsame]
        exact hup.loop_ ▸ hloop
      · refine h.published w ?_ x hx
        exact (List.mem_append.mp hw).resolve_right fun hmem =>
          hne (List.mem_singleton.mp hmem).symm
    · simpa [setStarting] using hlen
    · simp [setStarting, hloops, List.range_succ]
    · simp only [Option.map_some, Option.getD_some, piecesLeft]
      omega

/-- `listen` is handed to the base loop, and `start` ends. -/
theorem Inv.next_listening {s : ServerStart F T} (h : s.Inv) {caller : Caller T}
    (hpc : s.starting caller = some .listening) :
    ∃ u, s.next caller = some u ∧ Ahead s u (.inl caller) := by
  have hinside := h.inside hpc
  obtain ⟨hlen, hloops⟩ := hinside.at_pc
  refine ⟨{ s with loop_ := s.loop_.runInLoop caller .listen }.setStarting caller none, ?_, ?_⟩
  · rw [ServerStart.next, hpc]
  · refine .of_update ?_ rfl hpc rfl (by simp [piecesLeft]) (fun _ => rfl)
    have hnone : Function.update s.starting caller none = fun _ => none := by
      rw [hinside.starting, Function.update_idem]
      exact Function.update_eq_self caller (fun _ => none)
    refine ⟨?_, fun t hne => absurd (congrFun hnone _) hne, h.counter, h.few, h.up, h.published,
      .inr (.inr ⟨hinside.calls, hnone, hlen, hloops, ?_⟩)⟩
    · cases caller with
      | loopThread => exact ⟨h.base.order, h.base.wake, h.base.calling, h.base.own⟩
      | external t =>
        have hidle := h.idle t (by rw [hpc]; exact Option.some_ne_none _)
        have hmay : s.loop_.mayCall (.external t) = true := by
          simp [EventLoop.mayCall, hidle]
        exact h.base.queueInLoop hmay _
    · have hgiven := EventLoop.given_step s.loop_ (.runInLoop caller .listen)
      have hcount := hgiven.count_eq BaseFunctor.listen
      have hbefore : s.loop_.given.count .listen = 0 := hinside.handed
      rw [List.count_append, hbefore] at hcount
      exact hcount

/-- **A piece of `start`.** -/
theorem Inv.next {s : ServerStart F T} (h : s.Inv) {caller : Caller T}
    (he : machine.enabled s (.next caller) = true) :
    ∃ u, s.next caller = some u ∧ Ahead s u (.inl caller) := by
  have he' : s.enabled (.next caller) = true := he
  simp only [enabled] at he'
  cases hpc : s.starting caller with
  | none =>
    rw [hpc] at he'
    cases he'
  | some pc =>
    cases pc with
    | making i =>
      by_cases hi : i < s.numThreads_
      · exact h.next_making hpc hi
      · exact h.next_made hpc hi
    | waiting i t =>
      simp only [hpc] at he'
      cases hthread : s.threads_[t]? with
      | none =>
        rw [hthread] at he'
        cases he'
      | some thread =>
        simp only [hthread, EventLoopThread.enabled, Bool.and_eq_true] at he'
        exact h.next_waiting hpc hthread he'.1
    | listening => exact h.next_listening hpc

/-- **A piece of `threadFunc`.** -/
theorem Inv.threadFunc {s : ServerStart F T} (h : s.Inv) {t : Nat}
    (he : machine.enabled s (.threadFunc t) = true) :
    ∃ u, s.stepThread t .threadFunc = some u ∧ Ahead s u (.inr t) := by
  have he' : s.enabled (.threadFunc t) = true := he
  simp only [enabled] at he'
  cases hthread : s.threads_[t]? with
  | none =>
    rw [hthread] at he'
    cases he'
  | some thread =>
    simp only [hthread] at he'
    obtain ⟨hup, hless, hreturned⟩ :=
      (h.up thread (List.mem_of_getElem? hthread)).threadFunc he'
    have hpublished : thread.thread.hasPublished = true →
        thread.threadFunc.thread.hasPublished = true := by
      rw [hup.hasPublished_iff, (h.up thread (List.mem_of_getElem? hthread)).hasPublished_iff]
      omega
    refine ⟨{ s with threads_ := s.threads_.set t thread.threadFunc }, ?_,
      h.setThread hthread hup hpublished hreturned, ?_, ?_⟩
    · rw [stepThread, hthread]
      rfl
    · simp only [rank, List.getElem?_set_self (List.getElem?_eq_some_iff.mp hthread).1, hthread]
      exact hless
    · intro b hb
      cases b with
      | inl c => rfl
      | inr w =>
        have hw : t ≠ w := fun heq => hb (heq ▸ rfl)
        simp only [rank, List.getElem?_set_ne hw]

/-- Every step keeps the invariant. -/
theorem Inv.step {s : ServerStart F T} (h : s.Inv) {a : StartAct F T}
    (he : machine.enabled s a = true) : ∃ u, machine.step s a = some u ∧ u.Inv := by
  cases a with
  | start caller => exact ⟨_, rfl, h.start he⟩
  | next caller =>
    obtain ⟨u, hu, hahead⟩ := h.next he
    exact ⟨u, hu, hahead.inv⟩
  | threadFunc t =>
    obtain ⟨u, hu, hahead⟩ := h.threadFunc he
    exact ⟨u, hu, hahead.inv⟩
  | thread t a =>
    have he' : s.enabled (.thread t a) = true := he
    simp only [enabled] at he'
    cases hthread : s.threads_[t]? with
    | none =>
      rw [hthread] at he'
      cases he'
    | some thread =>
      simp only [hthread, Bool.and_eq_true] at he'
      obtain ⟨v, hv, hup, hsame, hreturned⟩ :=
        (h.up thread (List.mem_of_getElem? hthread)).other he'.1 he'.2
      refine ⟨{ s with threads_ := s.threads_.set t v }, ?_,
        h.setThread hthread hup (fun hpub => hsame ▸ hpub) hreturned⟩
      have hstep : machine.step s (.thread t a) = s.stepThread t a := rfl
      rw [hstep, stepThread, hthread]
      simp only [hv, Option.map_some]
  | base a =>
    have he' : s.enabled (.base a) = true := he
    simp only [enabled, Bool.and_eq_true, decide_eq_true_eq] at he'
    obtain ⟨⟨hmay, hother⟩, hfree⟩ := he'
    obtain ⟨u, hu, hbase⟩ := eventLoopInv_invariant.step s.loop_ a h.base hmay
    obtain rfl := Option.some.inj hu
    have hhanded : handed { s with loop_ := s.loop_.step a } = s.handed := by
      have hcount := (EventLoop.given_step s.loop_ a).count_eq BaseFunctor.listen
      rw [List.count_append] at hcount
      have hnone : a.functor.toList.count .listen = 0 := by
        rw [List.count_eq_zero]
        simpa using hother
      rw [hnone] at hcount
      exact hcount
    refine ⟨{ s with loop_ := s.loop_.step a }, rfl, hbase, fun t hne => ?_, h.counter, h.few,
      h.up, h.published, ?_⟩
    · -- a thread in `start` has not taken the action
      rw [← h.idle t hne]
      refine EventLoop.external_step fun hcaller => ?_
      rw [hcaller] at hfree
      exact hne (Option.isNone_iff_eq_none.mp hfree)
    · rcases h.stage with hfresh | ⟨c, pc, hinside⟩ | hdone
      · exact .inl ⟨hfresh.calls, hfresh.starting, hfresh.threads, hfresh.loops,
          hhanded.trans hfresh.handed⟩
      · refine .inr (.inl ⟨c, pc, hinside.calls, hinside.starting, ?_,
          hhanded.trans hinside.handed⟩)
        have hat := hinside.at_pc
        cases pc with
        | _ => exact hat
      · exact .inr (.inr ⟨hdone.calls, hdone.starting, hdone.threads, hdone.loops,
          hhanded.trans hdone.handed⟩)

/-- The invariant holds in every state reached. -/
theorem inv_reaches {numThreads : Nat} {callback : Bool} {as : List (StartAct F T)}
    {s : ServerStart F T} (h : machine.Reaches (new numThreads callback) as s) : s.Inv :=
  Machine.invariant_reaches ⟨inv_new numThreads callback, fun _ _ hI he => hI.step he⟩ h

/-! ## §3 From the first call to the end -/

/-- A step leaves the number of threads, and takes no call back. -/
theorem frame_step {s u : ServerStart F T} {a : StartAct F T} (hs : machine.step s a = some u) :
    u.numThreads_ = s.numThreads_ ∧ s.calls ≤ u.calls := by
  have hthread : ∀ v : ServerStart F T, v.numThreads_ = s.numThreads_ → v.calls = s.calls →
      ∀ t b, v.stepThread t b = some u → u.numThreads_ = s.numThreads_ ∧ s.calls ≤ u.calls := by
    intro v hnum hcalls t b hv
    rw [stepThread] at hv
    cases hthread : v.threads_[t]? with
    | none =>
      rw [hthread] at hv
      cases hv
    | some thread =>
      rw [hthread] at hv
      obtain ⟨w, -, rfl⟩ := Option.map_eq_some_iff.mp hv
      exact ⟨hnum, Nat.le_of_eq hcalls.symm⟩
  have hs' : s.step a = some u := hs
  cases a with
  | start caller =>
    cases hs'
    rw [ServerStart.start]
    split
    · exact ⟨rfl, Nat.le_succ _⟩
    · exact ⟨rfl, Nat.le_succ _⟩
  | next caller =>
    rw [ServerStart.step, ServerStart.next] at hs'
    split at hs'
    · cases hs'
    · split at hs'
      · exact (hthread _ · · _ _ hs') rfl rfl
      · cases hs'
        exact ⟨rfl, Nat.le_refl _⟩
    · exact (hthread _ · · _ _ hs') rfl rfl
    · cases hs'
      exact ⟨rfl, Nat.le_refl _⟩
  | threadFunc t => exact hthread s rfl rfl t _ hs'
  | thread t a => exact hthread s rfl rfl t a hs'
  | base a =>
    cases hs'
    exact ⟨rfl, Nat.le_refl _⟩

theorem numThreads_reaches {numThreads : Nat} {callback : Bool} {as : List (StartAct F T)}
    {s : ServerStart F T} (h : machine.Reaches (new numThreads callback) as s) :
    s.numThreads_ = numThreads :=
  h.preserves (fun _ _ _ hn _ hs => (frame_step hs).1.trans hn) rfl

/-- What runs has been given. -/
theorem Inv.listened_le {s : ServerStart F T} (h : s.Inv) : s.listened ≤ s.handed := by
  rw [listened, handed, EventLoop.given, ← h.base.order]
  simp only [List.count_append]
  omega

/-- **The server listens once, and late.** However the calls of `start`, the threads of the pool and
    the base loop are interleaved: no step faults; `Acceptor::listen` runs at most once; and when it
    has run, `start` has ended, `loops_` has the loop of each of the pool's threads, in their order,
    and every one of these has been published by a thread that has not left it. -/
theorem start_listens_once {numThreads : Nat} {callback : Bool} {as : List (StartAct F T)}
    {s : ServerStart F T} (h : machine.Reaches (new numThreads callback) as s) :
    machine.Safe s ∧ s.listened ≤ 1 ∧ (s.listened ≠ 0 → (∀ c, s.starting c = none) ∧
      s.threads_.length = numThreads ∧ s.loops_ = List.range numThreads ∧
      ∀ thread ∈ s.threads_, thread.loop_ = true ∧
        (thread.thread = .published ∨ thread.thread = .inLoop)) := by
  have hinv := inv_reaches h
  have hle := hinv.listened_le
  refine ⟨fun a he => ?_, ?_, fun hlistened => ?_⟩
  · obtain ⟨u, hu, -⟩ := hinv.step he
    rw [hu]
    exact Option.some_ne_none u
  · rcases hinv.stage with hfresh | ⟨c, pc, hinside⟩ | hdone
    · exact Nat.le_trans hle (hfresh.handed ▸ Nat.zero_le 1)
    · exact Nat.le_trans hle (hinside.handed ▸ Nat.zero_le 1)
    · exact hdone.handed ▸ hle
  · -- it has been handed over, at the end of `start`
    rcases hinv.stage with hfresh | ⟨c, pc, hinside⟩ | hdone
    · have hnone := hfresh.handed
      omega
    · have hnone := hinside.handed
      omega
    · have hthreads := hdone.threads
      have hloops := hdone.loops
      rw [numThreads_reaches h] at hthreads hloops
      refine ⟨fun c => congrFun hdone.starting c, hthreads, hloops, fun thread hmem => ?_⟩
      obtain ⟨t, ht⟩ := List.mem_iff_getElem?.mp hmem
      have hlt := (List.getElem?_eq_some_iff.mp ht).1
      have hpublished := hinv.published t (by rw [hloops]; simpa [hthreads] using hlt) thread ht
      have hup := hinv.up thread hmem
      refine ⟨hup.loop_.trans hpublished, ?_⟩
      have hthread := hup.thread
      cases hplace : thread.thread <;> simp_all [ThreadPc.up, ThreadPc.hasPublished]

/-- A thread whose start is under way, with nothing else in its way, can go on. -/
theorem Inv.goes {s : ServerStart F T} (h : s.Inv) (hcalls : 0 < s.calls) (a : Caller T ⊕ Nat)
    (hrank : 0 < s.rank a) :
    ∃ b c u, actor b = some c ∧ machine.enabled s b = true ∧ machine.step s b = some u := by
  have hstep : ∀ b c, actor b = some c → machine.enabled s b = true →
      ∃ b c u, actor b = some c ∧ machine.enabled s b = true ∧ machine.step s b = some u := by
    intro b c hb he
    obtain ⟨u, hu, -⟩ := h.step he
    exact ⟨b, c, u, hb, he, hu⟩
  -- a thread of the pool that has not entered its loop
  have hpool : ∀ t thread, s.threads_[t]? = some thread → 0 < EventLoopThread.toGo thread.thread →
      s.enabled (.threadFunc t) = true := by
    intro t thread hthread hgo
    simp only [enabled, hthread, EventLoopThread.enabled]
    cases hplace : thread.thread <;> simp_all [EventLoopThread.toGo]
  -- a thread in `start` waits at most for the thread that it has started
  have hstart : ∀ caller pc, s.starting caller = some pc →
      ∃ b c u, actor b = some c ∧ machine.enabled s b = true ∧ machine.step s b = some u := by
    intro caller pc hpc
    have hat := (h.inside hpc).at_pc
    cases pc with
    | making i =>
      refine hstep (.next caller) _ rfl ?_
      have hgo : s.enabled (.next caller) = true := by simp [enabled, hpc]
      exact hgo
    | waiting i t =>
      obtain ⟨rfl, hi, hlen, -, hnot⟩ := hat
      obtain ⟨thread, hthread⟩ : ∃ thread, s.threads_[t]? = some thread :=
        ⟨_, List.getElem?_eq_getElem (by omega)⟩
      have hup := h.up thread (List.mem_of_getElem? hthread)
      by_cases hloop : thread.loop_ = true
      · refine hstep (.next caller) _ rfl ?_
        have hgo : s.enabled (.next caller) = true := by
          simp [enabled, hpc, hthread, EventLoopThread.enabled, hloop, hnot thread hthread]
        exact hgo
      · refine hstep (.threadFunc t) _ rfl (hpool t thread hthread ?_)
        rw [hup.loop_, hup.hasPublished_iff] at hloop
        omega
    | listening =>
      refine hstep (.next caller) _ rfl ?_
      have hgo : s.enabled (.next caller) = true := by simp [enabled, hpc]
      exact hgo
  cases a with
  | inl caller =>
    cases hpc : s.starting caller with
    | none => simp [rank, hpc] at hrank
    | some pc => exact hstart caller pc hpc
  | inr t =>
    cases hthread : s.threads_[t]? with
    | some thread =>
      simp only [rank, hthread] at hrank
      exact hstep (.threadFunc t) _ rfl (hpool t thread hthread hrank)
    | none =>
      -- not all threads have been made, so one is in `start`
      have hlen : s.threads_.length ≤ t := List.getElem?_eq_none_iff.mp hthread
      have hlt : t < s.numThreads_ := by
        simp only [rank, hthread] at hrank
        split at hrank
        · assumption
        · cases hrank
      rcases h.stage with hfresh | ⟨c, pc, hinside⟩ | hdone
      · rw [hfresh.calls] at hcalls
        cases hcalls
      · exact hstart c pc (by rw [hinside.starting, Function.update_self])
      · have hthreads := hdone.threads
        omega

/-- What does not belong to the start leaves all of it to be done, after the first call. -/
theorem Inv.rank_of_quiet {s u : ServerStart F T} (h : s.Inv) (hcalls : 0 < s.calls)
    {a : StartAct F T} (ha : actor a = none) (he : machine.enabled s a = true)
    (hs : machine.step s a = some u) (b : Caller T ⊕ Nat) : u.rank b = s.rank b := by
  have hs' : s.step a = some u := hs
  have he' : s.enabled a = true := he
  cases a with
  | next caller => cases ha
  | threadFunc t => cases ha
  | start caller =>
    cases hs'
    have hone : s.started_ ≠ 0 := fun hzero =>
      absurd (h.started_eq_zero_iff.mp hzero) (Nat.ne_of_gt hcalls)
    rw [ServerStart.start, if_neg hone]
    cases b with
    | inl c => rfl
    | inr t => rfl
  | thread t a =>
    rw [ServerStart.step, stepThread] at hs'
    simp only [enabled] at he'
    cases hthread : s.threads_[t]? with
    | none =>
      rw [hthread] at hs'
      cases hs'
    | some thread =>
      simp only [hthread, Bool.and_eq_true] at hs' he'
      obtain ⟨v, hv, -, hsame, -⟩ :=
        (h.up thread (List.mem_of_getElem? hthread)).other he'.1 he'.2
      rw [hv, Option.map_some, Option.some.injEq] at hs'
      subst hs'
      cases b with
      | inl c => rfl
      | inr w =>
        exact rank_inr_set (s := s) (u := { s with threads_ := s.threads_.set t v }) rfl hthread
          rfl hsame w
  | base a =>
    cases hs'
    cases b with
    | inl c => rfl
    | inr t => rfl

/-- After the first call `start` and the new threads drain. -/
theorem drains : (machine (F := F) (T := T)).Drains (fun s => s.Inv ∧ 0 < s.calls) actor rank where
  keeps s a u h he hs := by
    obtain ⟨v, hv, hinv⟩ := h.1.step he
    rw [hs, Option.some.injEq] at hv
    exact ⟨hv ▸ hinv, Nat.lt_of_lt_of_le h.2 (frame_step hs).2⟩
  lowers s a u b h ha he hs := by
    obtain ⟨v, hv, hahead⟩ : ∃ v, machine.step s a = some v ∧ Ahead s v b := by
      cases a with
      | next caller =>
        cases ha
        exact h.1.next he
      | threadFunc t =>
        cases ha
        exact h.1.threadFunc he
      | start caller => cases ha
      | thread t a => cases ha
      | base a => cases ha
    rw [hs, Option.some.injEq] at hv
    subst hv
    exact ⟨hahead.less, hahead.same⟩
  goes s b h hrank := h.1.goes h.2 b hrank

/-- The pool never has more threads than it should. -/
theorem Inv.length_le {s : ServerStart F T} (h : s.Inv) : s.threads_.length ≤ s.numThreads_ := by
  rcases h.stage with hfresh | ⟨c, pc, hinside⟩ | hdone
  · rw [hfresh.threads]
    exact Nat.zero_le _
  · have hat := hinside.at_pc
    cases pc with
    | making i =>
      obtain ⟨hle, hlen, -⟩ := hat
      omega
    | waiting i t =>
      obtain ⟨-, hi, hlen, -⟩ := hat
      omega
    | listening => exact Nat.le_of_eq hat.1
  · exact Nat.le_of_eq hdone.threads

omit [DecidableEq T] in
/-- No place is further from the end than the first. -/
theorem rank_le (s : ServerStart F T) :
    (∀ c, s.rank (.inl c) ≤ 2 * s.numThreads_ + 2) ∧ ∀ t, s.rank (.inr t) ≤ 4 := by
  constructor
  · intro c
    cases hpc : s.starting c with
    | none => simp [rank, hpc]
    | some pc =>
      cases pc <;> simp only [rank, hpc, Option.map_some, Option.getD_some, piecesLeft] <;> omega
  · intro t
    cases hthread : s.threads_[t]? with
    | none =>
      simp only [rank, hthread]
      split <;> omega
    | some thread =>
      simp only [rank, hthread]
      cases thread.thread <;> decide

/-- When nothing is left to be done, `start` has ended and every loop runs. -/
theorem Inv.of_rank_zero {s : ServerStart F T} (h : s.Inv) (hcalls : 0 < s.calls)
    (hzero : ∀ a, s.rank a = 0) :
    s.Done ∧ ∀ thread ∈ s.threads_, thread.thread = .inLoop := by
  constructor
  · rcases h.stage with hfresh | ⟨c, pc, hinside⟩ | hdone
    · rw [hfresh.calls] at hcalls
      cases hcalls
    · -- the thread in `start` would have a piece left
      have hleft := hzero (.inl c)
      simp only [rank, hinside.starting, Function.update_self, Option.map_some,
        Option.getD_some] at hleft
      cases pc <;> simp [piecesLeft] at hleft
    · exact hdone
  · intro thread hmem
    obtain ⟨t, hthread⟩ := List.mem_iff_getElem?.mp hmem
    have hleft := hzero (.inr t)
    have hup := (h.up thread hmem).thread
    simp only [rank, hthread] at hleft
    cases hplace : thread.thread <;> simp_all [EventLoopThread.toGo, ThreadPc.up]

/-- **`start` always gets to its end.** Once `start` has been called: in every run from there, with
    anything happening in between, a thread takes at most `2 * numThreads + 2` pieces of `start` and
    a thread of the pool at most 4 pieces of `threadFunc`; and there is a run of such pieces after
    which no thread is in `start`, every thread of the pool is in its loop, and `Acceptor::listen`
    has been handed to the base loop exactly once. -/
theorem start_finishes {numThreads : Nat} {callback : Bool} {as : List (StartAct F T)}
    {s : ServerStart F T} (h : machine.Reaches (new numThreads callback) as s)
    (hcalls : 0 < s.calls) :
    (∀ bs u, machine.Reaches s bs u →
      (∀ c, bs.countP (fun b => actor b = some (.inl c)) ≤ 2 * numThreads + 2) ∧
      ∀ t, bs.countP (fun b => actor b = some (.inr t)) ≤ 4) ∧
    ∃ bs u, machine.Reaches s bs u ∧ (∀ b ∈ bs, (actor b).isSome = true) ∧
      (∀ c, u.starting c = none) ∧ u.threads_.length = numThreads ∧
      (∀ thread ∈ u.threads_, thread.thread = .inLoop) ∧ u.loop_.given.count .listen = 1 := by
  have hinv := inv_reaches h
  have hnum := numThreads_reaches h
  constructor
  · intro bs u hrun
    have hcount := fun b => drains.count_le_of_quiet ⟨hinv, hcalls⟩ hrun b
      fun a _ ha v w hv he hs => Nat.le_of_eq (hv.1.rank_of_quiet hv.2 ha he hs b)
    obtain ⟨hstart, hpool⟩ := rank_le s
    constructor
    · intro c
      have hc := hcount (.inl c)
      have hle := hstart c
      rw [hnum] at hle
      omega
    · intro t
      have ht := hcount (.inr t)
      have hle := hpool t
      omega
  · -- the threads that may have something left: one in `start`, and those of the pool
    have hfinite : ∃ ts : List (Caller T ⊕ Nat), ∀ a, 0 < s.rank a → a ∈ ts := by
      have hlen := hinv.length_le
      have hpool : ∀ t, 0 < s.rank (.inr t) → t < s.numThreads_ := by
        intro t hrank
        by_contra hge
        have hnone : s.threads_[t]? = none := List.getElem?_eq_none (by omega)
        simp [rank, hnone, hge] at hrank
      rcases hinv.stage with hfresh | ⟨c, pc, hinside⟩ | hdone
      · rw [hfresh.calls] at hcalls
        cases hcalls
      · refine ⟨.inl c :: (List.range s.numThreads_).map .inr, fun a hrank => ?_⟩
        cases a with
        | inl d =>
          by_cases hd : d = c
          · rw [hd]
            exact List.mem_cons_self ..
          · simp [rank, hinside.starting, Function.update_of_ne hd] at hrank
        | inr t => simpa using hpool t hrank
      · refine ⟨(List.range s.numThreads_).map .inr, fun a hrank => ?_⟩
        cases a with
        | inl d => simp [rank, hdone.starting] at hrank
        | inr t => simpa using hpool t hrank
    obtain ⟨ts, hts⟩ := hfinite
    obtain ⟨bs, u, hrun, hall, hzero⟩ := drains.finishes ⟨hinv, hcalls⟩ hts
    have hcalls' : 0 < u.calls :=
      hrun.preserves (fun _ _ _ hpos _ hs => Nat.lt_of_lt_of_le hpos (frame_step hs).2) hcalls
    obtain ⟨hdone, hloops⟩ := (inv_reaches (h.trans hrun)).of_rank_zero hcalls' hzero
    exact ⟨bs, u, hrun, hall, fun c => congrFun hdone.starting c,
      hdone.threads.trans (numThreads_reaches (h.trans hrun)), hloops, hdone.handed⟩

/-- Two threads call `start` of a server with one thread in its pool: the base loop's own, before it
    calls `loop()`, and another one, which does not get through. -/
def twoCalls : List (StartAct Unit Unit) := [.start .loopThread, .start (.external ())]

/-- The first one starts the thread of the pool, waits for it, and listens. -/
def firstListens : List (StartAct Unit Unit) :=
  twoCalls ++ [.next .loopThread, .threadFunc 0, .threadFunc 0, .next .loopThread,
    .next .loopThread, .next .loopThread]

theorem firstListens_once : ∃ s : ServerStart Unit Unit,
    machine.Reaches (new 1 false) firstListens s ∧ s.listened ≠ 0 ∧ s.listened ≤ 1 ∧
      s.loops_ = List.range 1 ∧ ∀ thread ∈ s.threads_, thread.loop_ = true := by
  have hrun : machine.Reaches (new 1 false) firstListens _ := Machine.reaches_of_run rfl
  obtain ⟨-, hle, hlate⟩ := start_listens_once hrun
  obtain ⟨-, -, hloops, hall⟩ := hlate (by decide)
  exact ⟨_, hrun, by decide, hle, hloops, fun thread hmem => (hall thread hmem).1⟩

theorem twoCalls_finish : ∃ s : ServerStart Unit Unit, machine.Reaches (new 1 false) twoCalls s ∧
    ∃ bs u, machine.Reaches s bs u ∧ (∀ c, u.starting c = none) ∧
      u.loop_.given.count .listen = 1 := by
  have hrun : machine.Reaches (new 1 false) twoCalls _ := Machine.reaches_of_run rfl
  obtain ⟨-, bs, u, hrest, -, hnone, -, -, hone⟩ := start_finishes hrun (by decide)
  exact ⟨_, hrun, bs, u, hrest, hnone, hone⟩

end ServerStart

end RainWebServer.Net
