import RainWebServer.Net.TcpServerLife

/-!
# Steps of a Server

What the pieces of the server's functions change (`frame_putView`, `frame_queueInLoop`, ..),
and the steps that act on one connection: the calls that leave it at its stage, and the
functors of its queue.

## Main results

- `ServerInv.putView`, `ServerInv.user` : calls that keep the stage
- `Ready.connectEstablished`, `Ready.removeConnectionInLoop`, `Ready.connectDestroyed` : the
  calls that end it
- `ServerInv.runFunctor` : every functor keeps the invariant
-/

namespace RainWebServer.Net

open RainWebServer.Lib

namespace TcpServer

variable {L : Type} [DecidableEq L] {cfg : ServerConfig L} {s s' : TcpServer L} {c : ConnId}

/-! ## §1 What the pieces change -/

@[simp] theorem loops_setLoop (s : TcpServer L) (l l' : L) (loop : ServerLoop) :
    (s.setLoop l loop).loops l' = if l' = l then loop else s.loops l' :=
  Function.update_apply _ _ _ _

@[simp] theorem conns_putView (s : TcpServer L) (c c' : ConnId) (io : ConnIo ConnId) :
    (s.putView c io).conns c' = if c' = c then { s.conns c with conn := io.conn } else s.conns c' :=
  Function.update_apply _ _ _ _

theorem loops_setPhase (s : TcpServer L) (l l' : L) (phase : LoopPhase) :
    (s.setPhase l phase).loops l' =
      if l' = l then { s.loops l with phase := phase } else s.loops l' :=
  loops_setLoop _ _ _ _

theorem poller_setPhase (s : TcpServer L) (l l' : L) (phase : LoopPhase) :
    ((s.setPhase l phase).loops l').poller = (s.loops l').poller := by
  rw [loops_setPhase]
  split
  · rename_i hl
    rw [hl]
  · rfl

/-- A phase is neither poller nor queue. -/
theorem view_setPhase (s : TcpServer L) (l : L) (phase : LoopPhase) (c : ConnId) :
    (s.setPhase l phase).view c = s.view c := by
  have hloop : (s.setPhase l phase).loops (s.conns c).loop_ =
      { s.loops (s.conns c).loop_ with
        phase := ((s.setPhase l phase).loops (s.conns c).loop_).phase } := by
    rw [loops_setPhase]
    split
    · rename_i heq
      rw [heq]
    · rfl
  show ConnIo.mk c _ ((s.setPhase l phase).loops (s.conns c).loop_).poller
    ((s.setPhase l phase).loops (s.conns c).loop_).pendingFunctors_ [] = _
  rw [hloop]
  rfl

theorem life_putView {io : ConnIo ConnId} {n : Nat} (h : io.Life n) (hptr : io.ptr = c) :
    ((s.putView c io).view c).Life n := by
  have hconn : ((s.putView c io).view c).conn = io.conn := by
    simp [view]
  have hloop : ((s.putView c io).conns c).loop_ = (s.conns c).loop_ := by
    simp
  have hpoller : ((s.putView c io).view c).poller = io.poller := by
    show ((s.putView c io).loops ((s.putView c io).conns c).loop_).poller = io.poller
    rw [hloop]
    simp [putView]
  apply ConnIo.Life.congr h hptr.symm hconn
  intro hn
  obtain ⟨hinterest, hchannels⟩ := h.agrees hn
  rw [hptr] at hinterest hchannels
  rw [ConnIo.Agrees, hpoller, hconn]
  exact ⟨hinterest, hchannels⟩

/-- The filter of `lifeQueued`. -/
def lifeOf (c : ConnId) (fs : List (ConnId × ConnFunctor)) : List ConnFunctor :=
  (fs.filter fun p => p.1 = c && p.2.isLifecycle).map Prod.snd

theorem lifeOf_append (c : ConnId) (fs₁ fs₂ : List (ConnId × ConnFunctor)) :
    lifeOf c (fs₁ ++ fs₂) = lifeOf c fs₁ ++ lifeOf c fs₂ := by
  simp [lifeOf]

theorem lifeOf_cons_ne {c c' : ConnId} (h : c' ≠ c) (f : ConnFunctor)
    (fs : List (ConnId × ConnFunctor)) : lifeOf c' ((c, f) :: fs) = lifeOf c' fs := by
  simp [lifeOf, Ne.symm h]

theorem lifeOf_cons_self (c : ConnId) (f : ConnFunctor) (fs : List (ConnId × ConnFunctor)) :
    lifeOf c ((c, f) :: fs) = (if f.isLifecycle then [f] else []) ++ lifeOf c fs := by
  cases hf : f.isLifecycle <;> simp [lifeOf, hf]

/-- Plain functors do not count. -/
theorem lifeOf_plain (c c' : ConnId) {fs : List ConnFunctor} (h : ∀ f ∈ fs, f.isPlain = true) :
    lifeOf c' (fs.map (c, ·)) = [] := by
  simp only [lifeOf, List.map_eq_nil_iff, List.filter_eq_nil_iff, List.mem_map]
  rintro p ⟨f, hf, rfl⟩
  simp [ConnFunctor.isLifecycle_of_isPlain (h f hf)]

/-- The queue of a loop after a call that queued plain functors. -/
theorem queued_putView {io : ConnIo ConnId} {fs : List ConnFunctor}
    (hqueue : io.queue = (s.view c).queue ++ fs.map (c, ·)) (l : L) :
    (s.putView c io).queued l =
      s.queued l ++ if l = (s.conns c).loop_ then fs.map (c, ·) else [] := by
  simp only [queued, putView, loops_setLoop]
  split
  · rename_i hl
    subst hl
    simp only [ServerLoop.queued, hqueue, view, List.append_assoc]
  · simp

/-- The queue of a loop after `queueInLoop`. -/
theorem queued_queueInLoop (s : TcpServer L) (l l' : L) (c : ConnId) (f : ConnFunctor) :
    (s.queueInLoop l c f).queued l' = s.queued l' ++ if l' = l then [(c, f)] else [] := by
  simp only [queued, queueInLoop, loops_setLoop]
  split
  · rename_i hl
    subst hl
    simp [ServerLoop.queued]
  · simp

/-- The loop over `activeChannels_` runs no functor. -/
theorem queued_dispatching {l : L} {activeChannels : List ConnId} {current : Option Dispatch}
    (hphase : (s.loops l).phase = .dispatching activeChannels current)
    (activeChannels' : List ConnId) (current' : Option Dispatch) (l' : L) :
    (s.setPhase l (.dispatching activeChannels' current')).queued l' = s.queued l' := by
  rw [queued, loops_setPhase]
  split
  · rename_i hl
    subst hl
    simp [queued, ServerLoop.queued, hphase]
  · rfl

/-- `doPendingFunctors` runs the first functor of the queue. -/
theorem queued_runningFunctors {l : L} {ran rest : List (ConnId × ConnFunctor)}
    {p : ConnId × ConnFunctor} (hphase : (s.loops l).phase = .runningFunctors ran (p :: rest))
    (l' : L) : s.queued l' = (if l' = l then [p] else []) ++
      (s.setPhase l (.runningFunctors (ran ++ [p]) rest)).queued l' := by
  rw [queued, queued, loops_setPhase]
  split
  · rename_i hl
    subst hl
    simp [ServerLoop.queued, hphase]
  · rfl

theorem phase_queueInLoop (s : TcpServer L) (l : L) (c : ConnId) (f : ConnFunctor) (l' : L) :
    ((s.queueInLoop l c f).loops l').phase = (s.loops l').phase := by
  rw [queueInLoop, loops_setLoop]
  split
  · rename_i hl
    rw [hl]
  · rfl

theorem poller_queueInLoop (s : TcpServer L) (l : L) (c : ConnId) (f : ConnFunctor) (l' : L) :
    ((s.queueInLoop l c f).loops l').poller = (s.loops l').poller := by
  rw [queueInLoop, loops_setLoop]
  split
  · rename_i hl
    rw [hl]
  · rfl

theorem life_queueInLoop {n : Nat} (h : (s.view c).Life n) (l : L) (f : ConnFunctor) :
    ((s.queueInLoop l c f).view c).Life n := by
  have hpoller : ((s.queueInLoop l c f).view c).poller = (s.view c).poller :=
    poller_queueInLoop s l c f _
  have hconn : ((s.queueInLoop l c f).view c).conn = (s.view c).conn := rfl
  apply ConnIo.Life.congr h (show ((s.queueInLoop l c f).view c).ptr = _ from rfl) hconn
  intro hn
  rw [ConnIo.Agrees, hpoller]
  exact h.agrees hn

theorem phase_putView (s : TcpServer L) (c : ConnId) (io : ConnIo ConnId) (l : L) :
    ((s.putView c io).loops l).phase = (s.loops l).phase := by
  simp only [putView, loops_setLoop]
  split
  · rename_i hl
    rw [hl]
  · rfl

omit [DecidableEq L] in
/-- Same phases, same dispatches. -/
theorem todoOf_congr (hloop : (s'.conns c).loop_ = (s.conns c).loop_)
    (hphase : (s'.loops (s.conns c).loop_).phase = (s.loops (s.conns c).loop_).phase) :
    s'.todoOf c = s.todoOf c := by
  simp only [todoOf, dispatch, ServerLoop.dispatch, hloop, hphase]

omit [DecidableEq L] in
theorem todoOf_none (h : s.dispatch (s.conns c).loop_ = none) : s.todoOf c = none := by
  rw [todoOf, h]
  rfl

omit [DecidableEq L] in
theorem todoOf_some {d : Dispatch} (h : s.dispatch (s.conns c).loop_ = some d) (hd : d.conn = c) :
    s.todoOf c = some d.todo := by
  simp [todoOf, h, hd]

omit [DecidableEq L] in
theorem todoOf_ne {d : Dispatch} (h : s.dispatch (s.conns c).loop_ = some d) (hd : d.conn ≠ c) :
    s.todoOf c = none := by
  simp [todoOf, h, hd]

/-- While a loop runs functors it dispatches nothing. -/
theorem todoOf_runningFunctors {l : L} {ran rest : List (ConnId × ConnFunctor)}
    (hphase : (s.loops l).phase = .runningFunctors ran rest)
    (ran' rest' : List (ConnId × ConnFunctor)) (c : ConnId) :
    (s.setPhase l (.runningFunctors ran' rest')).todoOf c = s.todoOf c := by
  by_cases hl : (s.conns c).loop_ = l
  · rw [todoOf_none (s := s), todoOf_none]
    · show ((s.setPhase l _).loops (s.conns c).loop_).dispatch = none
      rw [loops_setPhase, if_pos hl]
      rfl
    · simp [dispatch, ServerLoop.dispatch, hl, hphase]
  · exact todoOf_congr rfl (by rw [loops_setPhase, if_neg hl])

/-! ## §2 Frames of the pieces -/

theorem frame_note (s : TcpServer L) (l : L) (c : ConnId) (call : ServerCall) (io : L) (fd : Int) :
    Frame c io fd s (s.note l c call) where
  conns _ _ := rfl
  pollers _ _ := rfl
  poller := ⟨fun _ _ => rfl, fun _ _ => rfl⟩
  lifeQueued _ _ _ := rfl
  queued _ _ hp := .inl hp
  active _ := List.Sublist.refl _
  dispatch _ d hd := .inl ⟨d, hd, rfl⟩
  todo _ _ := rfl
  calls c' hc := by
    rw [callsOf_note, if_neg (Ne.symm hc), List.append_nil]
  mem_calls e he := by
    rcases List.mem_append.mp he with he | he
    · exact .inl he
    · rw [List.mem_singleton.mp he]
      exact .inr rfl
  map _ _ _ := Iff.rfl
  keys h := h

/-- A call on a connection that queued plain functors. -/
theorem frame_putView {io : ConnIo ConnId} (h : (s.view c).Touches io) :
    Frame c (s.conns c).loop_ (s.conns c).conn.channel_.fd_ s (s.putView c io) := by
  obtain ⟨-, -, hothers, fs, hqueue, hplain⟩ := h
  have hphase := phase_putView s c io
  have hqueued := queued_putView (s := s) (c := c) hqueue
  refine ⟨?_, ?_, ?_, ?_, ?_, ?_, ?_, ?_, fun _ _ => rfl, fun _ he => .inl he,
    fun _ _ _ => Iff.rfl, id⟩
  · intro c' hc
    rw [conns_putView, if_neg hc]
  · intro l hl
    simp [putView, hl]
  · have hpoller : ((s.putView c io).loops (s.conns c).loop_).poller = io.poller := by
      simp [putView]
    rw [hpoller]
    exact hothers
  · intro l c' hc
    show lifeOf c' ((s.putView c io).queued l) = lifeOf c' (s.queued l)
    rw [hqueued, lifeOf_append]
    split
    · rw [lifeOf_plain c c' hplain, List.append_nil]
    · exact List.append_nil _
  · intro l p hp
    rw [hqueued] at hp
    rcases List.mem_append.mp hp with hp | hp
    · exact .inl hp
    · split at hp
      · obtain ⟨f, hf, rfl⟩ := List.mem_map.mp hp
        refine .inr ⟨rfl, ?_⟩
        -- the functors of a plain call bind a `shared_ptr`
        have hplain' := hplain f hf
        cases f <;> first | rfl | cases hplain'
      · exact absurd hp List.not_mem_nil
  · intro l
    simp only [active, ServerLoop.active, hphase]
    exact List.Sublist.refl _
  · intro l d hd
    simp only [dispatch, ServerLoop.dispatch, hphase] at hd
    exact .inl ⟨d, hd, rfl⟩
  · intro c' hc
    have hloop : ((s.putView c io).conns c').loop_ = (s.conns c').loop_ := by
      rw [conns_putView, if_neg hc]
    exact todoOf_congr hloop (hphase _)

/-- A functor for the connection, in the queue of any loop. -/
theorem frame_queueInLoop (s : TcpServer L) (l : L) (c : ConnId) {f : ConnFunctor}
    (hf : f.bindsShared = true) (io : L) (fd : Int) : Frame c io fd s (s.queueInLoop l c f) := by
  have hphase := phase_queueInLoop s l c f
  have hpoller := poller_queueInLoop s l c f
  refine ⟨fun _ _ => rfl, fun l' _ => hpoller l', ?_, ?_, ?_, ?_, ?_, ?_, fun _ _ => rfl,
    fun _ he => .inl he, fun _ _ _ => Iff.rfl, id⟩
  · rw [hpoller]
    exact ⟨fun _ _ => rfl, fun _ _ => rfl⟩
  · intro l' c' hc
    show lifeOf c' ((s.queueInLoop l c f).queued l') = lifeOf c' (s.queued l')
    rw [queued_queueInLoop, lifeOf_append]
    split
    · rw [lifeOf_cons_ne hc]
      exact List.append_nil _
    · exact List.append_nil _
  · intro l' p hp
    rw [queued_queueInLoop] at hp
    rcases List.mem_append.mp hp with hp | hp
    · exact .inl hp
    · split at hp
      · rw [List.mem_singleton.mp hp]
        exact .inr ⟨rfl, hf⟩
      · exact absurd hp List.not_mem_nil
  · intro l'
    simp only [active, ServerLoop.active, hphase]
    exact List.Sublist.refl _
  · intro l' d hd
    simp only [dispatch, ServerLoop.dispatch, hphase] at hd
    exact .inl ⟨d, hd, rfl⟩
  · intro c' _
    exact todoOf_congr rfl (hphase _)

/-- Another phase of the loop over `activeChannels_`, on the way through the dispatch of one
    connection. -/
theorem frame_dispatching {l io : L} (current' : Option Dispatch) (fd : Int)
    {activeChannels activeChannels' : List ConnId} {current : Option Dispatch}
    (hphase : (s.loops l).phase = .dispatching activeChannels current)
    (hactive : activeChannels'.Sublist activeChannels)
    (hcurrent : ∀ d ∈ current, d.conn = c) (hcurrent' : ∀ d ∈ current', d.conn = c ∧ l = io) :
    Frame c io fd s (s.setPhase l (.dispatching activeChannels' current')) := by
  have hqueued := queued_dispatching hphase activeChannels' current'
  refine ⟨fun _ _ => rfl, fun l' _ => poller_setPhase s l l' _, ?_, ?_, ?_, ?_, ?_, ?_,
    fun _ _ => rfl, fun _ he => .inl he, fun _ _ _ => Iff.rfl, id⟩
  · rw [poller_setPhase]
    exact ⟨fun _ _ => rfl, fun _ _ => rfl⟩
  · intro l' c' _
    rw [lifeQueued, hqueued]
    rfl
  · intro l' p hp
    rw [hqueued] at hp
    exact .inl hp
  · intro l'
    rw [active, loops_setPhase]
    split
    · rename_i hl
      subst hl
      simpa [active, ServerLoop.active, hphase] using hactive
    · exact List.Sublist.refl _
  · intro l' d hd
    rw [dispatch, loops_setPhase] at hd
    split at hd
    · rename_i hl
      -- the dispatch that goes on is the one of `c`, on the loop of `c`
      obtain ⟨hconn, hio⟩ := hcurrent' d hd
      exact .inr ⟨hconn, hl.trans hio⟩
    · exact .inl ⟨d, hd, rfl⟩
  · intro c' hc
    by_cases hl : (s.conns c').loop_ = l
    · -- no dispatch of another connection on this loop, neither before nor after
      have hbefore : s.todoOf c' = none := by
        cases hd : s.dispatch (s.conns c').loop_ with
        | none => exact todoOf_none hd
        | some d =>
          apply todoOf_ne hd
          simp only [dispatch, ServerLoop.dispatch, hl, hphase] at hd
          rw [hcurrent d hd]
          exact Ne.symm hc
      have hafter : (s.setPhase l (.dispatching activeChannels' current')).todoOf c' = none := by
        cases hd : (s.setPhase l (.dispatching activeChannels' current')).dispatch
            (s.conns c').loop_ with
        | none => exact todoOf_none hd
        | some d =>
          apply todoOf_ne hd
          rw [dispatch, loops_setPhase, if_pos hl] at hd
          rw [(hcurrent' d hd).1]
          exact Ne.symm hc
      rw [hbefore, hafter]
    · exact todoOf_congr rfl (by rw [loops_setPhase, if_neg hl])

/-- `doPendingFunctors` goes on to the next functor. -/
theorem frame_runningFunctors {l : L} (io : L) (fd : Int) {ran rest : List (ConnId × ConnFunctor)}
    {f : ConnFunctor} (hphase : (s.loops l).phase = .runningFunctors ran ((c, f) :: rest)) :
    Frame c io fd s (s.setPhase l (.runningFunctors (ran ++ [(c, f)]) rest)) := by
  have hqueued := queued_runningFunctors hphase
  refine ⟨fun _ _ => rfl, fun l' _ => poller_setPhase s l l' _, ?_, ?_, ?_, ?_, ?_, ?_,
    fun _ _ => rfl, fun _ he => .inl he, fun _ _ _ => Iff.rfl, id⟩
  · rw [poller_setPhase]
    exact ⟨fun _ _ => rfl, fun _ _ => rfl⟩
  · intro l' c' hc
    show _ = lifeOf c' (s.queued l')
    rw [hqueued, lifeOf_append]
    split
    · rw [lifeOf_cons_ne hc]
      rfl
    · rfl
  · intro l' p hp
    rw [hqueued]
    exact .inl (List.mem_append_right _ hp)
  · intro l'
    rw [active, loops_setPhase]
    split
    · exact List.nil_sublist _
    · exact List.Sublist.refl _
  · intro l' d hd
    rw [dispatch, loops_setPhase] at hd
    split at hd
    · exact absurd hd (by simp [ServerLoop.dispatch])
    · exact .inl ⟨d, hd, rfl⟩
  · exact fun c' _ => todoOf_runningFunctors hphase _ _ c'

omit [DecidableEq L] in
/-- The map's entry of the connection goes, and names are different. -/
theorem frame_eraseConnection {name : String}
    (hunique : ∀ c', (name, c') ∈ s.connections_ → c' = c) (io : L) (fd : Int) :
    Frame c io fd s (s.eraseConnection name) := by
  refine ⟨fun _ _ => rfl, fun _ _ => rfl, ⟨fun _ _ => rfl, fun _ _ => rfl⟩, fun _ _ _ => rfl,
    fun _ _ hp => .inl hp, fun _ => List.Sublist.refl _, fun _ d hd => .inl ⟨d, hd, rfl⟩,
    fun _ _ => rfl, fun _ _ => rfl, fun _ he => .inl he, ?_, ?_⟩
  · intro name' c' hc
    simp only [eraseConnection, List.mem_filter, decide_eq_true_eq]
    constructor
    · exact fun hm => hm.1
    · intro hm
      refine ⟨hm, ?_⟩
      rintro rfl
      -- only an entry with this name goes, and that is the entry of `c`
      exact hc (hunique c' hm)
  · exact fun h => h.sublist (List.filter_sublist.map Prod.fst)

/-! ## §3 Steps that keep the stage -/

/-- What identifies a connection stays. -/
structure SameId (c : ConnId) (s s' : TcpServer L) : Prop where
  accepted : s'.accepted = s.accepted
  nextConnId : s'.nextConnId_ = s.nextConnId_
  loop : (s'.conns c).loop_ = (s.conns c).loop_
  name : (s'.conns c).name_ = (s.conns c).name_
  fd : (s'.conns c).conn.channel_.fd_ = (s.conns c).conn.channel_.fd_

omit [DecidableEq L] in
theorem SameId.trans {s'' : TcpServer L} (h₁ : SameId c s s') (h₂ : SameId c s' s'') :
    SameId c s s'' :=
  ⟨h₂.accepted.trans h₁.accepted, h₂.nextConnId.trans h₁.nextConnId, h₂.loop.trans h₁.loop,
    h₂.name.trans h₁.name, h₂.fd.trans h₁.fd⟩

omit [DecidableEq L] in
theorem SameId.refl (c : ConnId) (s : TcpServer L) : SameId c s s := ⟨rfl, rfl, rfl, rfl, rfl⟩

theorem sameId_setPhase (s : TcpServer L) (l : L) (phase : LoopPhase) (c : ConnId) :
    SameId c s (s.setPhase l phase) := ⟨rfl, rfl, rfl, rfl, rfl⟩

omit [DecidableEq L] in
theorem sameId_note (s : TcpServer L) (l : L) (c : ConnId) (call : ServerCall) :
    SameId c s (s.note l c call) := ⟨rfl, rfl, rfl, rfl, rfl⟩

theorem sameId_putView {io : ConnIo ConnId} (h : (s.view c).Touches io) :
    SameId c s (s.putView c io) := by
  refine ⟨rfl, rfl, ?_, ?_, ?_⟩
  · simp
  · simp
  · simpa [view] using h.fd

/-- A step on a connection that exists. -/
theorem ServerInv.step_conn (h : ServerInv cfg s) (hc : c < s.accepted)
    (hf : Frame c (s.conns c).loop_ (s.conns c).conn.channel_.fd_ s s') (hid : SameId c s s')
    (hlast : s.stage c = 5 → s'.stage c = 5 ∧ ∀ l, (s'.loops l).poller = (s.loops l).poller)
    (hgone : s'.stage c = 5 → s.stage c ≠ 5 →
      (s'.loops (s.conns c).loop_).poller.interest (s.conns c).conn.channel_.fd_ = none ∧
        (s'.loops (s.conns c).loop_).poller.channels_ (s.conns c).conn.channel_.fd_ = none)
    (hconn : ConnInv cfg s' c)
    (hmap : ∀ name, (name, c) ∈ s'.connections_ ↔ s'.stage c ≤ 3 ∧ name = (s.conns c).name_) :
    ServerInv cfg s' := by
  -- a connection that is not gone is the only one with its fd
  have hown : OwnsFd c s s' := by
    by_cases hn : s.stage c = 5
    · exact .inr ⟨hn, hlast hn⟩
    · refine .inl ⟨hn, ?_⟩
      intro c' hc' hne hn' hfd
      rw [hid.fd] at hfd
      exact hne (h.distinct c' c hc' hc hn' hn hfd)
  apply h.of_frame (hid.fd ▸ hf) hid.loop (fun _ => ⟨rfl, hid.fd.symm⟩) hown
  · rw [hid.fd]
    exact hgone
  · intro c'
    rw [hid.accepted]
    exact ⟨.inl, fun h => h.elim id (fun heq => heq ▸ hc)⟩
  · rw [hid.nextConnId, hid.accepted]
    exact h.nextConnId
  · rw [hid.accepted]
    exact h.bound
  · exact hconn
  · rw [hid.name]
    exact h.name c hc
  · rw [hid.name]
    exact hmap

/-- A step that leaves the connection at its stage. -/
theorem ServerInv.step_keep (h : ServerInv cfg s) (hc : c < s.accepted)
    (hf : Frame c (s.conns c).loop_ (s.conns c).conn.channel_.fd_ s s') (hid : SameId c s s')
    (hstage : s'.stage c = s.stage c) (hconnections : s'.connections_ = s.connections_)
    (hpoller : s.stage c = 5 → ∀ l, (s'.loops l).poller = (s.loops l).poller)
    (hconn : ConnInv cfg s' c) : ServerInv cfg s' := by
  apply h.step_conn hc hf hid
  · exact fun hn => ⟨hstage.trans hn, hpoller hn⟩
  · exact fun hn hn' => absurd (hstage.symm.trans hn) hn'
  · exact hconn
  · intro name
    rw [hconnections, hstage, h.map]
    exact ⟨fun hm => hm.2, fun hm => ⟨hc, hm⟩⟩

omit [DecidableEq L] in
theorem stage_congr (hcalls : s'.callsOf c = s.callsOf c) : s'.stage c = s.stage c := by
  rw [stage, lifeCalls, hcalls]
  rfl

/-- What is to be shown of the connection after such a step. -/
theorem ConnInv.keep (h : ConnInv cfg s c) (hid : SameId c s s')
    (hrevents : (s'.conns c).conn.channel_.revents_ = (s.conns c).conn.channel_.revents_)
    (hcalls : s'.callsOf c = s.callsOf c) (hlife : (s'.view c).Life (s.stage c))
    (hqueued : ∀ l, s'.lifeQueued l c = s.lifeQueued l c) (htodo : s'.todoOf c = s.todoOf c)
    (hactive : c ∈ s'.active (s.conns c).loop_ → c ∈ s.active (s.conns c).loop_) :
    ConnInv cfg s' c where
  lifeCalls := by
    rw [stage_congr hcalls, hid.loop, TcpServer.lifeCalls, hcalls]
    exact h.lifeCalls
  events := by
    rw [hid.loop, hcalls]
    exact h.events
  life := by
    rw [stage_congr hcalls]
    exact hlife
  queued l := by
    rw [stage_congr hcalls, hid.loop, hqueued, htodo]
    exact h.queued l
  todo todo := by
    rw [stage_congr hcalls, htodo]
    exact h.todo todo
  active := by
    rw [stage_congr hcalls, htodo, hid.loop, hrevents]
    exact fun hmem => h.active (hactive hmem)

theorem lifeQueued_putView {io : ConnIo ConnId} (h : (s.view c).Touches io) (l : L)
    (c' : ConnId) : (s.putView c io).lifeQueued l c' = s.lifeQueued l c' := by
  obtain ⟨-, -, -, fs, hqueue, hplain⟩ := h
  show lifeOf c' ((s.putView c io).queued l) = lifeOf c' (s.queued l)
  rw [queued_putView hqueue, lifeOf_append]
  split
  · rw [lifeOf_plain c c' hplain, List.append_nil]
  · exact List.append_nil _

theorem todoOf_putView {io : ConnIo ConnId} (h : (s.view c).Touches io) :
    (s.putView c io).todoOf c = s.todoOf c :=
  todoOf_congr (sameId_putView h).loop (phase_putView s c io _)

theorem active_putView (s : TcpServer L) (c : ConnId) (io : ConnIo ConnId) (l : L) :
    (s.putView c io).active l = s.active l := by
  rw [active, ServerLoop.active, phase_putView]
  rfl

/-- The poller is unchanged on every loop if it is on the connection's. -/
theorem poller_putView {io : ConnIo ConnId} (h : io.poller = (s.view c).poller) (l : L) :
    ((s.putView c io).loops l).poller = (s.loops l).poller := by
  simp only [putView, loops_setLoop]
  split
  · rename_i hl
    rw [hl]
    exact h
  · rfl

/-- **A call that keeps the connection at its stage keeps the invariant.** -/
theorem ServerInv.putView (h : ServerInv cfg s) (hc : c < s.accepted) {io : ConnIo ConnId}
    (hkeeps : ConnIo.KeepsLife (s.stage c) (s.view c) io) : ServerInv cfg (s.putView c io) := by
  have htouches := hkeeps.keeps.touches
  have hrevents : ((s.putView c io).conns c).conn.channel_.revents_ =
      (s.conns c).conn.channel_.revents_ := by
    simpa [view] using hkeeps.keeps.revents
  apply h.step_keep hc (frame_putView htouches) (sameId_putView htouches)
  · rfl
  · rfl
  · exact fun hn => poller_putView (hkeeps.poller hn)
  · apply (h.conns c hc).keep (sameId_putView htouches) hrevents rfl
      (life_putView hkeeps.life htouches.ptr)
    · exact fun l => lifeQueued_putView htouches l c
    · exact todoOf_putView htouches
    · rw [active_putView]
      exact id

/-- **The calls of users.** -/
theorem ServerInv.user (h : ServerInv cfg s) (hc : c < s.accepted) (call : UserCall) :
    ∃ t, (call.apply (s.view c)).map (s.putView c) = some t ∧ ServerInv cfg t := by
  obtain ⟨io, happly, hkeeps⟩ := UserCall.apply_spec (h.conns c hc).life call
  rw [happly]
  exact ⟨_, rfl, h.putView hc hkeeps⟩

/-! ## §4 Functors -/

/-- The functors that wait for a connection, when one of them is run. -/
theorem lifeQueued_runningFunctors {l : L} {ran rest : List (ConnId × ConnFunctor)}
    {f : ConnFunctor} (hphase : (s.loops l).phase = .runningFunctors ran ((c, f) :: rest))
    (l' : L) : s.lifeQueued l' c = (if l' = l ∧ f.isLifecycle = true then [f] else []) ++
      (s.setPhase l (.runningFunctors (ran ++ [(c, f)]) rest)).lifeQueued l' c := by
  show lifeOf c (s.queued l') = _ ++ lifeOf c (queued _ l')
  rw [queued_runningFunctors hphase l', lifeOf_append]
  congr 1
  by_cases hl : l' = l
  · rw [if_pos hl, lifeOf_cons_self]
    simp [hl, lifeOf]
  · simp [hl, lifeOf]

theorem lifeQueued_queueInLoop (s : TcpServer L) (l l' : L) (c : ConnId) {f : ConnFunctor}
    (hf : f.isLifecycle = true) : (s.queueInLoop l c f).lifeQueued l' c =
      s.lifeQueued l' c ++ if l' = l then [f] else [] := by
  show lifeOf c ((s.queueInLoop l c f).queued l') = lifeOf c (s.queued l') ++ _
  rw [queued_queueInLoop, lifeOf_append]
  congr 1
  split
  · rw [lifeOf_cons_self, if_pos hf]
    rfl
  · rfl

/-- Which functor waits tells the stage and the loop, and there is no other. -/
theorem nextFunctor_cons {loop ioLoop l : L} {todo : Option (List HandlerOp)} {n : Nat}
    {f : ConnFunctor} {fs : List ConnFunctor} (h : nextFunctor loop ioLoop l todo n = f :: fs) :
    fs = [] ∧ ((n = 1 ∧ f = .connectEstablished ∧ l = ioLoop) ∨
      (n = 3 ∧ f = .removeConnectionInLoop ∧ l = loop ∧ closing todo = false) ∨
      (n = 4 ∧ f = .connectDestroyed ∧ l = ioLoop)) := by
  unfold nextFunctor at h
  split at h
  · split at h
    · rename_i hl
      obtain ⟨rfl, rfl⟩ := List.cons.inj h
      exact ⟨rfl, .inl ⟨rfl, rfl, hl⟩⟩
    · cases h
  · split at h
    · rename_i hl
      obtain ⟨rfl, rfl⟩ := List.cons.inj h
      exact ⟨rfl, .inr (.inl ⟨rfl, rfl, hl⟩)⟩
    · cases h
  · split at h
    · rename_i hl
      obtain ⟨rfl, rfl⟩ := List.cons.inj h
      exact ⟨rfl, .inr (.inr ⟨rfl, rfl, hl⟩)⟩
    · cases h
  · cases h

/-- A connection waits for its next functor on one loop only. -/
theorem nextFunctor_ne {loop ioLoop l l' : L} {todo : Option (List HandlerOp)} {n : Nat}
    {f : ConnFunctor} {fs : List ConnFunctor} (h : nextFunctor loop ioLoop l todo n = f :: fs)
    (hl : l' ≠ l) : nextFunctor loop ioLoop l' todo n = [] := by
  obtain ⟨-, ⟨rfl, -, rfl⟩ | ⟨rfl, -, rfl, -⟩ | ⟨rfl, -, rfl⟩⟩ := nextFunctor_cons h
  · exact if_neg hl
  · exact if_neg (fun hand => hl hand.1)
  · exact if_neg hl

/-- When the functor a connection waits for is taken from the queue, none is left. -/
theorem ConnInv.pop (h : ConnInv cfg s c) {l : L} {ran rest : List (ConnId × ConnFunctor)}
    {f : ConnFunctor} (hphase : (s.loops l).phase = .runningFunctors ran ((c, f) :: rest))
    (hf : f.isLifecycle = true) :
    ((s.stage c = 1 ∧ f = .connectEstablished ∧ l = (s.conns c).loop_) ∨
      (s.stage c = 3 ∧ f = .removeConnectionInLoop ∧ l = cfg.loop_ ∧
        closing (s.todoOf c) = false) ∨
      (s.stage c = 4 ∧ f = .connectDestroyed ∧ l = (s.conns c).loop_)) ∧
    ∀ l', (s.setPhase l (.runningFunctors (ran ++ [(c, f)]) rest)).lifeQueued l' c = [] := by
  have hhere := lifeQueued_runningFunctors hphase l
  rw [if_pos ⟨rfl, hf⟩, h.queued l] at hhere
  obtain ⟨hnil, hcases⟩ := nextFunctor_cons hhere
  refine ⟨hcases, ?_⟩
  intro l'
  by_cases hl : l' = l
  · rw [hl]
    exact hnil
  · have hthere := lifeQueued_runningFunctors hphase l'
    rw [if_neg (fun hand => hl hand.1), List.nil_append, h.queued l', nextFunctor_ne hhere hl]
      at hthere
    exact hthere.symm

/-- A functor that is not part of the lifecycle is taken from the queue. -/
theorem ServerInv.pop_plain (h : ServerInv cfg s) {l : L}
    {ran rest : List (ConnId × ConnFunctor)} {f : ConnFunctor}
    (hphase : (s.loops l).phase = .runningFunctors ran ((c, f) :: rest)) (hc : c < s.accepted)
    (hf : f.isLifecycle = false) :
    ServerInv cfg (s.setPhase l (.runningFunctors (ran ++ [(c, f)]) rest)) := by
  apply h.step_keep hc (frame_runningFunctors _ _ hphase) (sameId_setPhase s l _ c)
  · rfl
  · rfl
  · exact fun _ l' => poller_setPhase s l l' _
  · apply (h.conns c hc).keep (sameId_setPhase s l _ c) rfl rfl
    · rw [view_setPhase]
      exact (h.conns c hc).life
    · intro l'
      rw [lifeQueued_runningFunctors hphase l', if_neg (fun hand => by simp [hf] at hand)]
      rfl
    · exact todoOf_runningFunctors hphase _ _ c
    · exact fun hmem => (frame_runningFunctors (s.conns c).loop_ 0 hphase).active _ |>.subset hmem

omit [DecidableEq L] in
/-- The next call of the lifecycle is noted. -/
theorem InLifecycle.advance (h : InLifecycle cfg s c) (s' : TcpServer L) {l : L} {call : ServerCall}
    (hloop : (s'.conns c).loop_ = (s.conns c).loop_)
    (hcalls : s'.callsOf c = s.callsOf c ++ [(l, call)]) (hcall : call ≠ .handleEvent)
    (hnext : (lifecycle cfg.loop_ (s.conns c).loop_)[s.stage c]? = some (l, call)) :
    s'.stage c = s.stage c + 1 ∧ InLifecycle cfg s' c := by
  have hlife : s'.lifeCalls c = s.lifeCalls c ++ [(l, call)] := by
    rw [TcpServer.lifeCalls, hcalls, List.filter_append]
    simp [hcall, TcpServer.lifeCalls]
  have hstage : s'.stage c = s.stage c + 1 := by
    rw [stage, hlife, List.length_append]
    rfl
  refine ⟨hstage, ?_, ?_⟩
  · rw [hlife, hstage, hloop, List.take_add_one, hnext, h.lifeCalls]
    rfl
  · intro l'
    rw [hcalls, hloop]
    apply (h.events l').append
    · simp [Ne.symm hcall]
    · exact fun _ _ hbefore => hbefore

/-- A connection at stage `n` that waits for no functor, because the one that takes it on is
    running. -/
structure Ready (cfg : ServerConfig L) (s : TcpServer L) (c : ConnId) (n : Nat) : Prop
    extends InLifecycle cfg s c where
  stage : s.stage c = n
  life : (s.view c).Life n
  queued : ∀ l, s.lifeQueued l c = []
  todo : ∀ todo, s.todoOf c = some todo → Quiet todo
  active : c ∉ s.active (s.conns c).loop_

/-- What a step on the connection has to give for the invariant. -/
structure Advances (cfg : ServerConfig L) (c : ConnId) (n : Nat) (s s' : TcpServer L) : Prop where
  frame : Frame c (s.conns c).loop_ (s.conns c).conn.channel_.fd_ s s'
  sameId : SameId c s s'
  conn : ConnInv cfg s' c
  stage : s'.stage c = n

/-- `connectEstablished` opens the connection. -/
theorem Ready.connectEstablished (h : Ready cfg s c 1) :
    ∃ t, s.connectEstablished (s.conns c).loop_ c = some t ∧ Advances cfg c 2 s t ∧
      t.connections_ = s.connections_ := by
  obtain ⟨hagrees, -, hevents, -, hempty, hout, hin⟩ : (s.view c).Fresh := h.life
  obtain ⟨io, hest, hopen, hstate, hptr, hfd, -, hothers, hqueue, -, -⟩ :=
    ConnIo.connectEstablished_spec hagrees hevents hempty hout hin
  -- `connectEstablished` queues nothing
  have htouches : (s.view c).Touches io := ⟨hptr, hfd, hothers, [], by simpa using hqueue, by simp⟩
  have hid := sameId_putView htouches
  obtain ⟨hstage, hcalls⟩ := h.toInLifecycle.advance
    ((s.putView c io).note (s.conns c).loop_ c .connectEstablished) hid.loop
    (by rw [callsOf_note, if_pos rfl]; rfl) (by decide) (by rw [h.stage]; rfl)
  rw [h.stage] at hstage
  refine ⟨_, ?_, ⟨(frame_putView htouches).trans (frame_note _ _ _ _ _ _),
    hid.trans (sameId_note _ _ _ _), ?_, hstage⟩, rfl⟩
  · rw [TcpServer.connectEstablished, hest]
    rfl
  · refine ⟨hcalls, ?_, ?_, ?_, ?_⟩
    · rw [hstage]
      exact life_putView (n := 2) ⟨hopen, .inl hstate⟩ hptr
    · intro l
      rw [hstage]
      exact (lifeQueued_putView htouches l c).trans (h.queued l)
    · intro todo htodo
      rw [hstage]
      exact .inl (.inl (h.todo todo ((todoOf_putView htouches).symm.trans htodo)))
    · intro hmem
      exact absurd ((active_putView s c io _) ▸ hid.loop ▸ hmem) h.active

/-- `connectDestroyed` takes the closed channel out of the poller. -/
theorem Ready.connectDestroyed (h : Ready cfg s c 4) (htodo : s.todoOf c = none) :
    ∃ t, s.connectDestroyed (s.conns c).loop_ c = some t ∧ Advances cfg c 5 s t ∧
      t.connections_ = s.connections_ ∧
      (t.loops (s.conns c).loop_).poller.interest (s.conns c).conn.channel_.fd_ = none ∧
      (t.loops (s.conns c).loop_).poller.channels_ (s.conns c).conn.channel_.fd_ = none := by
  obtain ⟨hclosed, hdisconnected⟩ : (s.view c).Closed ∧ _ := h.life
  obtain ⟨io, hdestroy, hclosed', hstate, hindex, hext⟩ :=
    ConnIo.connectDestroyed_spec hclosed (by rw [hdisconnected]; nofun)
  have htouches : (s.view c).Touches io := ConnIo.Keeps.touches ⟨[], [], hext, by simp⟩
  have hid := sameId_putView htouches
  obtain ⟨hstage, hcalls⟩ := h.toInLifecycle.advance
    ((s.putView c io).note (s.conns c).loop_ c .connectDestroyed) hid.loop
    (by rw [callsOf_note, if_pos rfl]; rfl) (by decide) (by rw [h.stage]; rfl)
  rw [h.stage] at hstage
  have hpoller : (((s.putView c io).note (s.conns c).loop_ c .connectDestroyed).loops
      (s.conns c).loop_).poller = io.poller := by
    simp [note, putView]
  have hfd : io.conn.channel_.fd_ = (s.conns c).conn.channel_.fd_ := htouches.fd
  refine ⟨_, ?_, ⟨(frame_putView htouches).trans (frame_note _ _ _ _ _ _),
    hid.trans (sameId_note _ _ _ _), ?_, hstage⟩, rfl,
    ?_, ?_⟩
  · rw [TcpServer.connectDestroyed, hdestroy]
    rfl
  · refine ⟨hcalls, ?_, ?_, ?_, ?_⟩
    · rw [hstage]
      exact life_putView (n := 5) ⟨hindex, hstate.trans hdisconnected⟩ hext.ptr
    · intro l
      rw [hstage]
      exact (lifeQueued_putView htouches l c).trans (h.queued l)
    · intro todo htodo'
      -- the loop is in `doPendingFunctors`, so no dispatch is left
      have hnone := (todoOf_putView htouches).trans htodo
      exact absurd (hnone.symm.trans htodo') (by simp)
    · intro hmem
      exact absurd ((active_putView s c io _) ▸ hid.loop ▸ hmem) h.active
  · rw [hpoller, ← hfd, hclosed'.agrees.interest_eq]
    simp [EPollPoller.entryOf, hindex]
  · rw [hpoller, ← hfd, hclosed'.agrees.channels_eq]
    simp [EPollPoller.mappedOf, hindex]

/-- `removeConnectionInLoop` erases the map's entry and queues `connectDestroyed`. -/
theorem Ready.removeConnectionInLoop (h : Ready cfg s c 3)
    (hunique : ∀ c', ((s.conns c).name_, c') ∈ s.connections_ → c' = c) :
    Advances cfg c 4 s (s.removeConnectionInLoop cfg.loop_ c) := by
  obtain ⟨hstage, hcalls⟩ := h.toInLifecycle.advance
    (s.removeConnectionInLoop cfg.loop_ c) rfl
    (by rw [TcpServer.removeConnectionInLoop, callsOf_note, if_pos rfl]; rfl) (by decide)
    (by rw [h.stage]; rfl)
  rw [h.stage] at hstage
  have hframe : Frame c (s.conns c).loop_ (s.conns c).conn.channel_.fd_ s
      (s.removeConnectionInLoop cfg.loop_ c) :=
    ((frame_eraseConnection hunique _ _).trans (frame_queueInLoop _ _ _ rfl _ _)).trans
      (frame_note _ _ _ _ _ _)
  refine ⟨hframe, ⟨rfl, rfl, rfl, rfl, rfl⟩, ⟨hcalls, ?_, ?_, ?_, ?_⟩, hstage⟩
  · rw [hstage]
    exact life_queueInLoop (s := s.eraseConnection (s.conns c).name_) (n := 4) h.life _ _
  · intro l
    rw [hstage]
    refine (lifeQueued_queueInLoop (s.eraseConnection (s.conns c).name_) _ l c rfl).trans ?_
    have hnil : (s.eraseConnection (s.conns c).name_).lifeQueued l c = [] := h.queued l
    rw [hnil]
    rfl
  · intro todo htodo
    have hsame : (s.removeConnectionInLoop cfg.loop_ c).todoOf c = s.todoOf c :=
      todoOf_congr rfl (phase_queueInLoop (s.eraseConnection (s.conns c).name_) _ _ _ _)
    rw [hstage]
    exact h.todo todo (hsame.symm.trans htodo)
  · exact fun hmem => absurd ((hframe.active _).subset hmem) h.active

/-- On another loop than the server's, `removeConnection` queues `removeConnectionInLoop`. -/
theorem Ready.queueRemove (h : Ready cfg s c 3) :
    Advances cfg c 3 s (s.queueInLoop cfg.loop_ c .removeConnectionInLoop) := by
  have hframe := frame_queueInLoop s cfg.loop_ c (f := .removeConnectionInLoop) rfl
    (s.conns c).loop_ (s.conns c).conn.channel_.fd_
  have htodo : (s.queueInLoop cfg.loop_ c .removeConnectionInLoop).todoOf c = s.todoOf c :=
    todoOf_congr rfl (phase_queueInLoop _ _ _ _ _)
  have hstage : (s.queueInLoop cfg.loop_ c .removeConnectionInLoop).stage c = 3 := h.stage
  refine ⟨hframe, ⟨rfl, rfl, rfl, rfl, rfl⟩, ⟨⟨h.lifeCalls, h.events⟩, ?_, ?_, ?_, ?_⟩,
    hstage⟩
  · rw [hstage]
    exact life_queueInLoop h.life _ _
  · intro l
    have hclosing : closing (s.todoOf c) = false := by
      unfold closing
      split
      · rename_i heq
        exact absurd (h.todo _ heq _ List.mem_cons_self) (by simp)
      · rfl
    rw [hstage, lifeQueued_queueInLoop s _ l c rfl, h.queued l, htodo]
    simp [nextFunctor, hclosing]
  · intro todo htodo'
    rw [hstage]
    exact .inl (h.todo todo (htodo.symm.trans htodo'))
  · exact fun hmem => absurd ((hframe.active _).subset hmem) h.active

/-- The invariant after a step that took a connection on, possibly after other pieces. -/
theorem ServerInv.advance {s₁ : TcpServer L} {n : Nat} (h : ServerInv cfg s)
    (hc : c < s.accepted)
    (hf : Frame c (s.conns c).loop_ (s.conns c).conn.channel_.fd_ s s₁) (hid : SameId c s s₁)
    (hadv : Advances cfg c n s₁ s') (hn : s.stage c ≠ 5)
    (hgone : n = 5 →
      (s'.loops (s.conns c).loop_).poller.interest (s.conns c).conn.channel_.fd_ = none ∧
        (s'.loops (s.conns c).loop_).poller.channels_ (s.conns c).conn.channel_.fd_ = none)
    (hmap : ∀ name, (name, c) ∈ s'.connections_ ↔ n ≤ 3 ∧ name = (s.conns c).name_) :
    ServerInv cfg s' := by
  have hframe := hadv.frame
  rw [hid.loop, hid.fd] at hframe
  apply h.step_conn hc (hf.trans hframe) (hid.trans hadv.sameId)
  · exact fun hlast => absurd hlast hn
  · intro hlast _
    exact hgone (hadv.stage.symm.trans hlast)
  · exact hadv.conn
  · rw [hadv.stage]
    exact hmap

/-- The map's entries of one connection. -/
theorem ServerInv.map_iff (h : ServerInv cfg s) (hc : c < s.accepted) (name : String) :
    (name, c) ∈ s.connections_ ↔ s.stage c ≤ 3 ∧ name = (s.conns c).name_ := by
  rw [h.map]
  exact ⟨fun hm => hm.2, fun hm => ⟨hc, hm⟩⟩

/-- **Names are unique**: the map has no entry of another connection under this one's name. -/
theorem ServerInv.name_unique (h : ServerInv cfg s) (hc : c < s.accepted) {c' : ConnId}
    (hmem : ((s.conns c).name_, c') ∈ s.connections_) : c' = c := by
  obtain ⟨hc', -, hname⟩ := (h.map _ _).mp hmem
  rw [h.name c hc, h.name c' hc'] at hname
  have hsucc := connName_inj cfg.name_ cfg.ipPort_ (Nat.lt_of_le_of_lt hc h.bound)
    (Nat.lt_of_le_of_lt hc' h.bound) hname
  exact (Nat.succ.inj hsucc).symm

/-- A connection whose functor was taken from the queue is ready for it. -/
theorem ConnInv.ready (h : ConnInv cfg s c) {l : L} {ran rest : List (ConnId × ConnFunctor)}
    {f : ConnFunctor} (hphase : (s.loops l).phase = .runningFunctors ran ((c, f) :: rest))
    (hf : f.isLifecycle = true) :
    Ready cfg (s.setPhase l (.runningFunctors (ran ++ [(c, f)]) rest)) c (s.stage c) := by
  obtain ⟨hcases, hqueued⟩ := h.pop hphase hf
  have htodo := todoOf_runningFunctors hphase (ran ++ [(c, f)]) rest c
  refine ⟨⟨h.lifeCalls, h.events⟩, rfl, ?_, hqueued, ?_, ?_⟩
  · rw [view_setPhase]
    exact h.life
  · intro todo htodo'
    rw [htodo] at htodo'
    have hok := h.todo todo htodo'
    rcases hcases with ⟨hn, -⟩ | ⟨hn, -, -, hclosing⟩ | ⟨hn, -⟩
    · -- a connection that is not established is not dispatched
      rw [hn] at hok
      exact hok.elim
    · rw [hn] at hok
      rcases hok with hquiet | ⟨rest, rfl, -⟩
      · exact hquiet
      · rw [htodo'] at hclosing
        cases hclosing
    · rw [hn] at hok
      exact hok
  · intro hmem
    have hactive :=
      (h.active (((frame_runningFunctors (c := c) l 0 hphase).active _).subset hmem)).1
    omega

/-- **The functors of a connection.** -/
theorem ServerInv.runFunctor (h : ServerInv cfg s) {l : L}
    {ran rest : List (ConnId × ConnFunctor)} {f : ConnFunctor}
    (hphase : (s.loops l).phase = .runningFunctors ran ((c, f) :: rest))
    (bytes file : List Byte) (w : WriteResult) :
    ∃ t, (s.setPhase l (.runningFunctors (ran ++ [(c, f)]) rest)).runFunctor l bytes file w c f =
      some t ∧ ServerInv cfg t := by
  have hmem : (c, f) ∈ s.queued l := by
    rw [queued_runningFunctors hphase, if_pos rfl]
    exact List.mem_cons_self
  obtain ⟨hc, hshared⟩ := h.queued l _ hmem
  have hconn := h.conns c hc
  have hframe := frame_runningFunctors (s.conns c).loop_ (s.conns c).conn.channel_.fd_ hphase
  have hid := sameId_setPhase s l (.runningFunctors (ran ++ [(c, f)]) rest) c
  cases f with
  | writeCompleteCallback => exact ⟨_, rfl, h.pop_plain hphase hc rfl⟩
  | highWaterMarkCallback size => exact ⟨_, rfl, h.pop_plain hphase hc rfl⟩
  | sendInLoop data len => cases hshared
  | shutdownInLoop => cases hshared
  | sendFileInLoop fileDescriptor offset count =>
    have h₁ := h.pop_plain hphase hc rfl
    exact ⟨_, rfl, h₁.putView hc (ConnIo.sendFileInLoop_keepsLife (h₁.conns c hc).life _ _ _ _ _)⟩
  | connectEstablished =>
    have hready := hconn.ready hphase rfl
    obtain ⟨hcases, -⟩ := hconn.pop hphase rfl
    obtain ⟨hn, rfl⟩ : s.stage c = 1 ∧ l = (s.conns c).loop_ := by simpa using hcases
    rw [hn] at hready
    obtain ⟨t, hrun, hadv, hconnections⟩ := hready.connectEstablished
    refine ⟨t, hrun, h.advance hc hframe hid hadv (hn.trans_ne (by decide)) nofun ?_⟩
    intro name
    rw [hconnections]
    refine (h.map_iff hc name).trans ?_
    rw [hn]
    simp
  | removeConnectionInLoop =>
    have hready := hconn.ready hphase rfl
    obtain ⟨hcases, -⟩ := hconn.pop hphase rfl
    obtain ⟨hn, rfl, -⟩ : s.stage c = 3 ∧ l = cfg.loop_ ∧ closing (s.todoOf c) = false := by
      simpa using hcases
    rw [hn] at hready
    have hadv := hready.removeConnectionInLoop (fun c' hmem => h.name_unique hc hmem)
    refine ⟨_, rfl, h.advance hc hframe hid hadv (hn.trans_ne (by decide)) nofun ?_⟩
    intro name
    -- the entry was erased
    refine iff_of_false ?_ (fun hle => absurd hle.1 (by decide))
    intro hmem
    obtain ⟨hmem', hname⟩ := List.mem_filter.mp hmem
    obtain ⟨-, rfl⟩ := (h.map_iff hc name).mp hmem'
    simp [setPhase, setLoop] at hname
  | connectDestroyed =>
    have hready := hconn.ready hphase rfl
    obtain ⟨hcases, -⟩ := hconn.pop hphase rfl
    obtain ⟨hn, rfl⟩ : s.stage c = 4 ∧ l = (s.conns c).loop_ := by simpa using hcases
    rw [hn] at hready
    have htodo := todoOf_runningFunctors hphase (ran ++ [(c, .connectDestroyed)]) rest c
    have hnone : s.todoOf c = none := by
      apply todoOf_none
      simp [TcpServer.dispatch, ServerLoop.dispatch, hphase]
    obtain ⟨t, hrun, hadv, hconnections, hgone⟩ := hready.connectDestroyed (htodo.trans hnone)
    refine ⟨t, hrun, h.advance hc hframe hid hadv (hn.trans_ne (by decide)) (fun _ => hgone) ?_⟩
    intro name
    rw [hconnections]
    refine (h.map_iff hc name).trans ?_
    rw [hn]
    simp

end TcpServer

end RainWebServer.Net
