import RainWebServer.Net.TcpServerSteps

/-!
# Steps of the Loops

The steps that belong to a loop keep `ServerInv` too: dispatching events, accepting a
connection, polling, and taking the queue.

## Main results

- `ServerInv.handler` : every callback of a dispatch, the closing ones among them
- `ServerInv.newConnection` : a connection is accepted
- `ServerInv.poll` : a poll lists open connections of the loop, each once
-/

namespace RainWebServer.Net

open RainWebServer.Lib

namespace TcpServer

variable {L : Type} [DecidableEq L] {cfg : ServerConfig L} {s s' : TcpServer L} {c : ConnId}

/-! ## §1 Holders -/

section

variable [Fintype L]

omit [DecidableEq L] in
theorem held_of_queued {l : L} {f : ConnFunctor} (hmem : (c, f) ∈ s.queued l)
    (hf : f.bindsShared = true) : s.held c = true := by
  have hshared : ∀ fs : List (ConnId × ConnFunctor), (c, f) ∈ fs → sharedBy c fs = true := by
    intro fs hfs
    exact List.any_eq_true.mpr ⟨_, hfs, by simp [hf]⟩
  have hholds : (s.loops l).holds c = true := by
    simp only [queued, ServerLoop.queued, List.mem_append] at hmem
    rcases hmem with hmem | hmem
    · split at hmem
      · rename_i hphase
        simp [ServerLoop.holds, hphase, hshared _ hmem]
      · exact absurd hmem List.not_mem_nil
    · simp [ServerLoop.holds, hshared _ hmem]
  rw [held, Bool.or_eq_true, decide_eq_true_eq]
  exact .inr ⟨l, hholds⟩

omit [DecidableEq L] in
/-- The functor that ran last holds its connection until the batch is done. -/
theorem held_of_ran {l : L} {ran rest : List (ConnId × ConnFunctor)}
    (hphase : (s.loops l).phase = .runningFunctors (ran ++ [(c, .connectDestroyed)]) rest) :
    s.held c = true := by
  rw [held, Bool.or_eq_true, decide_eq_true_eq]
  refine .inr ⟨l, ?_⟩
  have hran : sharedBy c (ran ++ [(c, .connectDestroyed)]) = true :=
    List.any_eq_true.mpr ⟨_, List.mem_append_right _ List.mem_cons_self, by
      simp [ConnFunctor.bindsShared]⟩
  simp [ServerLoop.holds, hphase, hran]

/-- **A connection is held until its last stage**: by the map, and then by the functor that
    destroys it. -/
theorem ServerInv.held (h : ServerInv cfg s) (hc : c < s.accepted) (hn : s.stage c ≠ 5) :
    s.held c = true := by
  have hconn := h.conns c hc
  have hle := hconn.life.le
  by_cases hmap : s.stage c ≤ 3
  · rw [TcpServer.held, Bool.or_eq_true]
    left
    exact List.any_eq_true.mpr ⟨_, (h.map_iff hc _).mpr ⟨hmap, rfl⟩, by simp⟩
  · have hstage : s.stage c = 4 := by omega
    have hqueued := hconn.queued (s.conns c).loop_
    rw [hstage] at hqueued
    have hmem : ConnFunctor.connectDestroyed ∈ s.lifeQueued (s.conns c).loop_ c := by
      rw [hqueued]
      simp [nextFunctor]
    obtain ⟨⟨c', f⟩, hp, rfl⟩ := List.mem_map.mp hmem
    obtain ⟨hp, hc'⟩ := List.mem_filter.mp hp
    simp only [Bool.and_eq_true, decide_eq_true_eq] at hc'
    exact held_of_queued (hc'.1 ▸ hp) rfl

end

/-- An entry of an interest list belongs to an open connection of that loop. -/
theorem ServerInv.registered (h : ServerInv cfg s) {l : L} {fd : Int} {mask : EventMask}
    (hentry : (s.loops l).poller.interest fd = some (mask, c)) :
    c < s.accepted ∧ s.stage c = 2 ∧ (s.conns c).loop_ = l ∧
      (s.conns c).conn.channel_.fd_ = fd := by
  -- an entry is owned by some connection, and says which
  obtain ⟨c', hc', hn, hl, hfd⟩ : ∃ c', c' < s.accepted ∧ s.stage c' ≠ 5 ∧
      (s.conns c').loop_ = l ∧ (s.conns c').conn.channel_.fd_ = fd := by
    by_contra hnone
    have hfree : ∀ c', c' < s.accepted → s.stage c' ≠ 5 → (s.conns c').loop_ = l →
        (s.conns c').conn.channel_.fd_ ≠ fd :=
      fun c' hc' hn hl hfd => hnone ⟨c', hc', hn, hl, hfd⟩
    rw [(h.owned l fd hfree).1] at hentry
    cases hentry
  have hlife := (h.conns c' hc').life
  have hinterest := (hlife.agrees hn).interest_eq
  subst hl hfd
  have hentry' := hinterest.symm.trans hentry
  unfold EPollPoller.entryOf at hentry'
  split at hentry'
  · rename_i hadded
    obtain rfl : c' = c := (Prod.mk.inj (Option.some.inj hentry')).2
    exact ⟨hc', hlife.eq_two_of_added hadded, rfl, rfl⟩
  · cases hentry'

/-! ## §2 Dispatches -/

theorem lifeQueued_dispatching {l : L} {activeChannels : List ConnId} {current : Option Dispatch}
    (hphase : (s.loops l).phase = .dispatching activeChannels current)
    (activeChannels' : List ConnId) (current' : Option Dispatch) (l' : L) (c : ConnId) :
    (s.setPhase l (.dispatching activeChannels' current')).lifeQueued l' c = s.lifeQueued l' c := by
  rw [lifeQueued, queued_dispatching hphase]
  rfl

theorem dispatch_setPhase (s : TcpServer L) (l : L) (activeChannels : List ConnId)
    (current : Option Dispatch) :
    (s.setPhase l (.dispatching activeChannels current)).dispatch l = current := by
  rw [dispatch, loops_setPhase, if_pos rfl]
  rfl

theorem active_setPhase (s : TcpServer L) (l : L) (activeChannels : List ConnId)
    (current : Option Dispatch) :
    (s.setPhase l (.dispatching activeChannels current)).active l = activeChannels := by
  rw [active, loops_setPhase, if_pos rfl]
  rfl

/-- The connection of the dispatch that a loop is in. -/
theorem ServerInv.dispatched (h : ServerInv cfg s) {l : L} {activeChannels : List ConnId}
    {guard : Bool} {todo : List HandlerOp}
    (hphase : (s.loops l).phase = .dispatching activeChannels (some ⟨c, guard, todo⟩)) :
    c < s.accepted ∧ (s.conns c).loop_ = l ∧ s.todoOf c = some todo ∧
      c ∉ s.active (s.conns c).loop_ := by
  have hdispatch : s.dispatch l = some ⟨c, guard, todo⟩ := by
    simp [TcpServer.dispatch, ServerLoop.dispatch, hphase]
  obtain ⟨hc, hl⟩ := h.dispatch l _ hdispatch
  have htodo : s.todoOf c = some todo := by
    have hdispatch' : s.dispatch (s.conns c).loop_ = some ⟨c, guard, todo⟩ := hl ▸ hdispatch
    exact todoOf_some hdispatch' rfl
  refine ⟨hc, hl, htodo, ?_⟩
  intro hmem
  rw [((h.conns c hc).active hmem).2.1] at htodo
  cases htodo

/-- The dispatch of a connection begins. -/
theorem ServerInv.handleEvent [Fintype L] (h : ServerInv cfg s) {l : L}
    {activeChannels : List ConnId}
    (hphase : (s.loops l).phase = .dispatching (c :: activeChannels) none) :
    ∃ t, s.handleEvent l = some t ∧ ServerInv cfg t := by
  have hactive : s.active l = c :: activeChannels := by
    simp [TcpServer.active, ServerLoop.active, hphase]
  obtain ⟨hc, rfl⟩ := h.active l c (by rw [hactive]; exact List.mem_cons_self)
  have hconn := h.conns c hc
  obtain ⟨hn, htodo, hreport⟩ := hconn.active (by rw [hactive]; exact List.mem_cons_self)
  have hheld := h.held hc (hn.trans_ne (by decide))
  -- a channel is reported once in a poll, so it is not among those that wait
  have hnotin : c ∉ activeChannels := by
    have hnodup := h.active_nodup (s.conns c).loop_
    rw [hactive] at hnodup
    exact (List.nodup_cons.mp hnodup).1
  refine ⟨_, by simp only [TcpServer.handleEvent, hphase, hheld, if_true]; rfl, ?_⟩
  have hcalls : ∀ current : Option Dispatch,
      ((s.setPhase (s.conns c).loop_ (.dispatching activeChannels current)).note
        (s.conns c).loop_ c .handleEvent).callsOf c =
        s.callsOf c ++ [((s.conns c).loop_, .handleEvent)] := by
    intro current
    rw [callsOf_note, if_pos rfl]
    rfl
  -- an event is no call of the life of a connection
  have hlifeCalls : ∀ current : Option Dispatch,
      ((s.setPhase (s.conns c).loop_ (.dispatching activeChannels current)).note
        (s.conns c).loop_ c .handleEvent).lifeCalls c = s.lifeCalls c := by
    intro current
    rw [lifeCalls, hcalls, List.filter_append]
    exact List.append_nil _
  have hstage : ∀ current : Option Dispatch,
      ((s.setPhase (s.conns c).loop_ (.dispatching activeChannels current)).note
        (s.conns c).loop_ c .handleEvent).stage c = s.stage c :=
    fun current => congrArg List.length (hlifeCalls current)
  apply h.step_keep hc
  · apply Frame.trans _ (frame_note _ _ _ _ _ _)
    apply frame_dispatching _ _ hphase (List.sublist_cons_self c activeChannels)
    · simp
    · simp
  · exact ⟨rfl, rfl, rfl, rfl, rfl⟩
  · exact hstage _
  · rfl
  · exact fun _ l' => poller_setPhase s _ l' _
  · refine ⟨⟨?_, ?_⟩, ?_, ?_, ?_, ?_⟩
    · rw [hlifeCalls, hstage]
      exact hconn.lifeCalls
    · -- it was established before
      intro l'
      rw [hcalls]
      by_cases hl : l' = (s.conns c).loop_
      · subst hl
        apply (hconn.events _).snoc
        · have hmem : ((s.conns c).loop_, ServerCall.connectEstablished) ∈ s.lifeCalls c := by
            rw [hconn.lifeCalls, hn]
            simp [lifecycle]
          exact ⟨rfl, (List.mem_filter.mp hmem).1⟩
        · exact fun _ _ hbefore => hbefore
      · apply (hconn.events l').append
        · simpa using hl
        · exact fun _ _ hbefore => hbefore
    · rw [hstage]
      show ((s.setPhase _ _).view c).Life _
      rw [view_setPhase]
      exact hconn.life
    · intro l'
      rw [hstage, hn]
      refine (lifeQueued_dispatching hphase _ _ l' c).trans ?_
      rw [hconn.queued l', hn]
      rfl
    · intro todo htodo'
      have hsome := (todoOf_some (dispatch_setPhase s (s.conns c).loop_ activeChannels
        (some ⟨c, (s.conns c).conn.channel_.tied_,
          handleEventWithGuard (s.conns c).conn.channel_.revents_⟩)) rfl)
      obtain rfl := Option.some.inj (hsome.symm.trans htodo')
      rw [hstage, hn]
      -- the callbacks follow from the mask, which epoll can report
      exact handleEventWithGuard_todoOk hreport
    · intro hmem
      have hmem' : c ∈ (s.setPhase (s.conns c).loop_ (.dispatching activeChannels _)).active
          (s.conns c).loop_ := hmem
      rw [active_setPhase] at hmem'
      exact absurd hmem' hnotin

/-- A dispatch goes on, or returns. -/
theorem ServerInv.setCurrent (h : ServerInv cfg s) {l : L} {activeChannels : List ConnId}
    {guard : Bool} {todo : List HandlerOp} {current : Option Dispatch}
    (hphase : (s.loops l).phase = .dispatching activeChannels (some ⟨c, guard, todo⟩))
    (hcurrent : ∀ d ∈ current, d.conn = c ∧ TodoOk d.todo (s.stage c))
    (hclosing : s.stage c = 3 → closing (current.map Dispatch.todo) = closing (some todo)) :
    ServerInv cfg (s.setPhase l (.dispatching activeChannels current)) := by
  obtain ⟨hc, rfl, htodo, hactive⟩ := h.dispatched hphase
  have hconn := h.conns c hc
  have hframe : Frame c (s.conns c).loop_ (s.conns c).conn.channel_.fd_ s
      (s.setPhase (s.conns c).loop_ (.dispatching activeChannels current)) := by
    apply frame_dispatching _ _ hphase (List.Sublist.refl _)
    · simp
    · exact fun d hd => ⟨(hcurrent d hd).1, rfl⟩
  have htodo' : (s.setPhase (s.conns c).loop_ (.dispatching activeChannels current)).todoOf c =
      current.map Dispatch.todo := by
    have hdispatch := dispatch_setPhase s (s.conns c).loop_ activeChannels current
    cases current with
    | none => exact todoOf_none hdispatch
    | some d => exact todoOf_some hdispatch (hcurrent d rfl).1
  apply h.step_keep hc hframe (sameId_setPhase s _ _ c)
  · rfl
  · rfl
  · exact fun _ l' => poller_setPhase s _ l' _
  · refine ⟨⟨hconn.lifeCalls, hconn.events⟩, ?_, ?_, ?_, ?_⟩
    · rw [view_setPhase]
      exact hconn.life
    · intro l'
      refine (lifeQueued_dispatching hphase _ _ l' c).trans ((hconn.queued l').trans ?_)
      rw [htodo', htodo]
      -- the dispatch matters only to a connection that is closing
      show nextFunctor cfg.loop_ _ l' _ (s.stage c) = nextFunctor cfg.loop_ _ l' _ (s.stage c)
      by_cases hn : s.stage c = 3
      · simp only [hn, nextFunctor, hclosing hn]
      · unfold nextFunctor
        split <;> first | rfl | contradiction
    · intro todo' hsome
      rw [htodo'] at hsome
      obtain ⟨d, hd, rfl⟩ := Option.map_eq_some_iff.mp hsome
      exact (hcurrent d hd).2
    · exact fun hmem => absurd ((hframe.active _).subset hmem) hactive

/-- A callback that keeps the stage, and what is left of its dispatch. -/
theorem ServerInv.handler_keep (h : ServerInv cfg s) {l : L} {activeChannels : List ConnId}
    {guard : Bool} {op : HandlerOp} {todo : List HandlerOp}
    (hphase : (s.loops l).phase = .dispatching activeChannels (some ⟨c, guard, op :: todo⟩))
    (todo' : List HandlerOp) {io : ConnIo ConnId}
    (hkeeps : ConnIo.KeepsLife (s.stage c) (s.view c) io)
    (hok : TodoOk todo' (s.stage c))
    (hclosing : s.stage c = 3 → Quiet (op :: todo) ∧ Quiet todo') :
    ServerInv cfg ((s.putView c io).setPhase l
      (.dispatching activeChannels (some ⟨c, guard, todo'⟩))) := by
  have hc := (h.dispatched hphase).1
  have hquiet : ∀ ops, Quiet ops → closing (some ops) = false := by
    intro ops hops
    unfold closing
    split
    · rename_i heq
      obtain rfl := Option.some.inj heq
      exact absurd (hops _ List.mem_cons_self) (by simp)
    · rfl
  apply (h.putView hc hkeeps).setCurrent ((phase_putView s c io l).trans hphase)
  · rintro d ⟨⟩
    exact ⟨rfl, hok⟩
  · intro hn
    obtain ⟨hbefore, hafter⟩ := hclosing hn
    rw [hquiet _ hbefore]
    exact hquiet _ hafter

/-- What a callback that closes leaves behind: the connection is `io`, and `todo'` is left of its
    dispatch. -/
structure Continued (s t : TcpServer L) (c : ConnId) (io : ConnIo ConnId)
    (todo' : List HandlerOp) : Prop where
  frame : Frame c (s.conns c).loop_ (s.conns c).conn.channel_.fd_ s t
  sameId : SameId c s t
  calls : t.callsOf c = s.callsOf c
  connections : t.connections_ = s.connections_
  life : ∀ n, io.Life n → (t.view c).Life n
  queued : ∀ l, t.lifeQueued l c = s.lifeQueued l c
  todo : t.todoOf c = some todo'
  active : c ∉ t.active (t.conns c).loop_

theorem ServerInv.continued (h : ServerInv cfg s) {l : L} {activeChannels : List ConnId}
    {guard : Bool} {todo : List HandlerOp}
    (hphase : (s.loops l).phase = .dispatching activeChannels (some ⟨c, guard, todo⟩))
    {io : ConnIo ConnId} (htouches : (s.view c).Touches io) (todo' : List HandlerOp) :
    Continued s ((s.putView c io).setPhase l
      (.dispatching activeChannels (some ⟨c, guard, todo'⟩))) c io todo' := by
  obtain ⟨hc, rfl, -, hactive⟩ := h.dispatched hphase
  have hid := sameId_putView htouches
  have hphase' := (phase_putView s c io (s.conns c).loop_).trans hphase
  have hframe := (frame_putView htouches).trans (frame_dispatching (some ⟨c, guard, todo'⟩)
    (s.conns c).conn.channel_.fd_ hphase' (List.Sublist.refl activeChannels) (by simp) (by simp))
  refine ⟨hframe, ⟨hid.accepted, hid.nextConnId, hid.loop, hid.name, hid.fd⟩, rfl, rfl, ?_, ?_,
    ?_, ?_⟩
  · intro n hlife
    rw [view_setPhase]
    exact life_putView hlife htouches.ptr
  · intro l'
    rw [lifeQueued_dispatching hphase', lifeQueued_putView htouches]
  · have hdispatch := dispatch_setPhase (s.putView c io) (s.conns c).loop_ activeChannels
      (some ⟨c, guard, todo'⟩)
    rw [← hid.loop] at hdispatch ⊢
    exact todoOf_some hdispatch rfl
  · intro hmem
    have hmem' := (hframe.active _).subset hmem
    rw [hid.loop.symm.trans rfl] at hactive
    exact hactive hmem'

/-- `handleClose` of an open connection. -/
theorem ServerInv.handleClose (h : ServerInv cfg s) {l : L} {activeChannels : List ConnId}
    {guard : Bool} {rest : List HandlerOp}
    (hphase : (s.loops l).phase =
      .dispatching activeChannels (some ⟨c, guard, .handleClose :: .closeCallback :: rest⟩))
    (hn : s.stage c = 2) (hrest : Quiet rest) :
    ∃ io, (s.view c).handleClose = some io ∧
      ServerInv cfg (((s.putView c io).setPhase l
        (.dispatching activeChannels (some ⟨c, guard, .closeCallback :: rest⟩))).note l c
          .handleClose) := by
  obtain ⟨hc, hl, -, -⟩ := h.dispatched hphase
  have hconn := h.conns c hc
  obtain ⟨hopen, -⟩ : (s.view c).Open ∧ _ := by
    have hlife := hconn.life
    rw [hn] at hlife
    exact hlife
  obtain ⟨io, hclose, hclosed, hstate, -, hext⟩ := ConnIo.disconnect_spec hopen
  have htouches : (s.view c).Touches io := ConnIo.Keeps.touches ⟨[], _, hext, by simp⟩
  refine ⟨io, hclose, ?_⟩
  have hcont := h.continued hphase htouches (.closeCallback :: rest)
  generalize (s.putView c io).setPhase l _ = t at hcont ⊢
  have hcalls : (t.note l c .handleClose).callsOf c = s.callsOf c ++ [(l, .handleClose)] := by
    rw [callsOf_note, if_pos rfl, hcont.calls]
  have hloop : ((t.note l c .handleClose).conns c).loop_ = (s.conns c).loop_ := hcont.sameId.loop
  -- `handleClose` is the call that is due next in the life of the connection
  obtain ⟨hstage, hin⟩ := hconn.toInLifecycle.advance _ hloop hcalls (by decide)
    (by rw [hn, ← hl]; rfl)
  rw [hn] at hstage
  refine h.advance hc hcont.frame hcont.sameId ⟨frame_note _ _ _ _ _ _, sameId_note _ _ _ _, ?_,
    hstage⟩ (hn.trans_ne (by decide)) nofun ?_
  · refine ⟨hin, ?_, ?_, ?_, ?_⟩
    · rw [hstage]
      exact hcont.life 3 ⟨hclosed, hstate⟩
    · intro l'
      have htodo : (t.note l c .handleClose).todoOf c = some (.closeCallback :: rest) := hcont.todo
      rw [hstage, htodo]
      refine (hcont.queued l').trans ((hconn.queued l').trans ?_)
      rw [hn]
      simp [nextFunctor, closing]
    · intro todo htodo
      obtain rfl := Option.some.inj (hcont.todo.symm.trans htodo)
      rw [hstage]
      -- `closeCallback_` is still to come in this dispatch
      exact .inr ⟨rest, rfl, hrest⟩
    · exact fun hmem => absurd hmem hcont.active
  · intro name
    rw [show (t.note l c .handleClose).connections_ = s.connections_ from hcont.connections,
      h.map_iff hc, hn]
    simp

/-- `closeCallback_` of a connection that has closed: it is removed at once on the server's
    loop, and otherwise waits for it. -/
theorem ServerInv.closeCallback (h : ServerInv cfg s) {l : L} {activeChannels : List ConnId}
    {guard : Bool} {rest : List HandlerOp}
    (hphase : (s.loops l).phase =
      .dispatching activeChannels (some ⟨c, guard, .closeCallback :: rest⟩))
    (hn : s.stage c = 3) (hrest : Quiet rest) :
    ServerInv cfg (((s.putView c ((s.view c).record .closeCallback)).setPhase l
      (.dispatching activeChannels (some ⟨c, guard, rest⟩))).removeConnection cfg l c) := by
  obtain ⟨hc, hl, htodo, -⟩ := h.dispatched hphase
  have hconn := h.conns c hc
  have hlife := hconn.life
  rw [hn] at hlife
  have htouches := (ConnIo.Keeps.record (s.view c) .closeCallback).touches
  have hlife' : ((s.view c).record .closeCallback).Life 3 :=
    (hlife.keepsLife_of_eq (.record _ _) rfl rfl).life
  have hcont := h.continued hphase htouches rest
  generalize (s.putView c ((s.view c).record .closeCallback)).setPhase l _ = t at hcont ⊢
  have hstage : t.stage c = 3 := (stage_congr hcont.calls).trans hn
  -- nothing of the removal is queued yet: the dispatch was the one to do it
  have hready : Ready cfg t c 3 := by
    refine ⟨⟨?_, ?_⟩, hstage, hcont.life 3 hlife', ?_, ?_, hcont.active⟩
    · rw [lifeCalls, hcont.calls, hcont.sameId.loop, stage_congr hcont.calls]
      exact hconn.lifeCalls
    · rw [hcont.calls, hcont.sameId.loop]
      exact hconn.events
    · intro l'
      rw [hcont.queued, hconn.queued, hn, htodo]
      simp [nextFunctor, closing]
    · intro todo hsome
      obtain rfl := Option.some.inj (hcont.todo.symm.trans hsome)
      exact hrest
  have hmap : ∀ name, (name, c) ∈ t.connections_ ↔ name = (s.conns c).name_ := by
    intro name
    rw [hcont.connections, h.map_iff hc, hn]
    simp
  unfold removeConnection
  split
  · -- on the server's own loop `runInLoop` calls at once
    rename_i hbase
    rw [hbase]
    have hadv := hready.removeConnectionInLoop (by
      intro c' hmem
      rw [hcont.connections, hcont.sameId.name] at hmem
      exact h.name_unique hc hmem)
    refine h.advance hc hcont.frame hcont.sameId hadv (hn.trans_ne (by decide))
      (fun hlast => by cases hlast) ?_
    intro name
    refine iff_of_false ?_ (fun hle => absurd hle.1 (by decide))
    intro hmem
    obtain ⟨hmem', hname⟩ := List.mem_filter.mp hmem
    rw [(hmap name).mp hmem', hcont.sameId.name] at hname
    simp at hname
  · -- elsewhere the functor waits, and the map keeps the connection until then
    refine h.advance hc hcont.frame hcont.sameId hready.queueRemove (hn.trans_ne (by decide))
      (fun hlast => by cases hlast) ?_
    intro name
    rw [show (t.queueInLoop _ c _).connections_ = t.connections_ from rfl, hmap]
    simp

/-- **The callbacks of a dispatch.** -/
theorem ServerInv.handler (h : ServerInv cfg s) {l : L} {activeChannels : List ConnId}
    {guard : Bool} {op : HandlerOp} {todo : List HandlerOp}
    (hphase : (s.loops l).phase = .dispatching activeChannels (some ⟨c, guard, op :: todo⟩))
    (r : ReadResult) (w : WriteResult) :
    ∃ t, s.handler cfg l r w = some t ∧ ServerInv cfg t := by
  obtain ⟨hc, hl, htodo, -⟩ := h.dispatched hphase
  have hconn := h.conns c hc
  have hlife := hconn.life
  have hok := hconn.todo _ htodo
  -- a callback that does nothing but keep the stage
  have hquiet : ∀ {op todo}, (s.loops l).phase =
        .dispatching activeChannels (some ⟨c, guard, op :: todo⟩) →
      (op = .handleError ∨ op = .handleWrite) → 2 ≤ s.stage c ∧ s.stage c ≤ 4 →
      TodoOk todo (s.stage c) → (s.stage c = 3 → Quiet todo) →
      ∃ t, s.handler cfg l r w = some t ∧ ServerInv cfg t := by
    intro op todo hphase hop hn hok hclosing
    obtain ⟨io, hrun, hkeeps⟩ := ConnIo.runHandler_quiet hlife hn r w hop
    refine ⟨_, ?_, h.handler_keep hphase todo hkeeps hok ?_⟩
    · simp only [TcpServer.handler, hphase, hrun, Option.bind_eq_bind, Option.bind_some,
        List.nil_append]
      rcases hop with rfl | rfl <;> rfl
    · intro hstage
      refine ⟨?_, hclosing hstage⟩
      intro op' hop'
      rcases List.mem_cons.mp hop' with rfl | hmem
      · exact hop
      · exact hclosing hstage op' hmem
  match hn : s.stage c with
  | 2 =>
    rw [hn] at hok
    rcases hok with hreads | ⟨rest, heq, hrest⟩
    · rcases hreads.cons_cases with ⟨rfl, hrest⟩ | ⟨hop, hrest⟩
      · obtain ⟨io, ops, hrun, hkeeps, hok'⟩ := ConnIo.handleRead_life (hn ▸ hlife) r hrest
        refine ⟨_, ?_, h.handler_keep hphase (ops ++ todo) (hn ▸ hkeeps) (hn ▸ hok') ?_⟩
        · simp only [TcpServer.handler, hphase, ConnIo.runHandler, hrun, Option.bind_eq_bind,
            Option.bind_some]
        · omega
      · exact hquiet hphase hop (by omega) (hn ▸ .inl hrest) (by omega)
    · obtain ⟨rfl, rfl⟩ := List.cons.inj heq
      obtain ⟨io, hclose, hinv⟩ := h.handleClose hphase hn hrest
      refine ⟨_, ?_, hinv⟩
      simp only [TcpServer.handler, hphase, ConnIo.runHandler, hclose, Option.map_some,
        Option.bind_eq_bind, Option.bind_some, List.nil_append]
  | 3 =>
    rw [hn] at hok
    rcases hok with hall | ⟨rest, heq, hrest⟩
    · exact hquiet hphase (hall _ List.mem_cons_self) (by omega) (hn ▸ .inl hall.tail)
        (fun _ => hall.tail)
    · obtain ⟨rfl, rfl⟩ := List.cons.inj heq
      refine ⟨_, ?_, h.closeCallback hphase hn hrest⟩
      simp only [TcpServer.handler, hphase, ConnIo.runHandler, Option.bind_eq_bind,
        Option.bind_some, List.nil_append]
  | 4 =>
    rw [hn] at hok
    exact hquiet hphase (hok _ List.mem_cons_self) (by omega) (hn ▸ Quiet.tail hok) (by omega)
  | 0 | 1 | n + 5 =>
    rw [hn] at hok
    exact hok.elim

/-! ## §3 New connections -/

/-- No functor, no dispatch and no call names a connection that does not exist. -/
theorem ServerInv.not_yet (h : ServerInv cfg s) :
    (∀ l, s.lifeQueued l s.accepted = []) ∧ (∀ l, s.accepted ∉ s.active l) ∧
      (∀ l, ∀ d ∈ s.dispatch l, d.conn ≠ s.accepted) ∧ s.callsOf s.accepted = [] := by
  refine ⟨?_, ?_, ?_, ?_⟩
  · intro l
    simp only [lifeQueued, List.map_eq_nil_iff, List.filter_eq_nil_iff]
    intro p hp heq
    simp only [Bool.and_eq_true, decide_eq_true_eq] at heq
    exact absurd (heq.1 ▸ (h.queued l p hp).1) (Nat.lt_irrefl _)
  · exact fun l hmem => absurd (h.active l _ hmem).1 (Nat.lt_irrefl _)
  · exact fun l d hd heq => absurd (heq ▸ (h.dispatch l d hd).1) (Nat.lt_irrefl _)
  · rw [callsOf, List.filterMap_eq_nil_iff]
    intro e he
    exact if_neg (fun heq => absurd (heq ▸ h.calls e he) (Nat.lt_irrefl _))

/-- The new name is not in the map. -/
theorem ServerInv.name_fresh (h : ServerInv cfg s) (hbound : s.accepted + 1 < 2 ^ 31)
    {c' : ConnId}
    (hmem : (connName cfg.name_ cfg.ipPort_.toIpPort s.nextConnId_, c') ∈ s.connections_) :
    False := by
  obtain ⟨hc', -, hname⟩ := (h.map _ _).mp hmem
  rw [h.nextConnId, h.name c' hc'] at hname
  have hsucc := connName_inj cfg.name_ cfg.ipPort_ hbound (Nat.lt_of_le_of_lt hc' h.bound) hname
  exact absurd ((Nat.succ.inj hsucc) ▸ hc') (Nat.lt_irrefl _)

omit [DecidableEq L] in
theorem conns_makeConnection (cfg : ServerConfig L) (s : TcpServer L) (sockfd : Int) (ioLoop : L) :
    (s.makeConnection cfg sockfd ioLoop).conns s.accepted =
      ⟨ioLoop, connName cfg.name_ cfg.ipPort_.toIpPort s.nextConnId_,
        { TcpConnection.new sockfd with
          writeCompleteCallback_ := cfg.writeCompleteCallback_ }⟩ :=
  Function.update_self _ _ _

/-- Making the connection changes nothing of the others. -/
theorem ServerInv.frame_makeConnection (h : ServerInv cfg s) (hbound : s.accepted + 1 < 2 ^ 31)
    (sockfd : Int) (ioLoop : L) :
    Frame s.accepted ioLoop sockfd s (s.makeConnection cfg sockfd ioLoop) where
  conns c' hc := Function.update_of_ne hc _ _
  pollers _ _ := rfl
  poller := ⟨fun _ _ => rfl, fun _ _ => rfl⟩
  lifeQueued _ _ _ := rfl
  queued _ _ hp := .inl hp
  active _ := List.Sublist.refl _
  dispatch _ d hd := .inl ⟨d, hd, rfl⟩
  todo c' hc := by
    apply todoOf_congr
    · exact congrArg ServerConn.loop_ (Function.update_of_ne hc _ _)
    · rfl
  calls c' hc := by
    rw [makeConnection, callsOf_note, if_neg (Ne.symm hc), List.append_nil]
    rfl
  mem_calls e he := by
    rcases List.mem_append.mp he with he | he
    · exact .inl he
    · rw [List.mem_singleton.mp he]
      exact .inr rfl
  map name c' hc := by
    simp only [makeConnection, insertConnection, note, List.mem_cons, Prod.mk.injEq, hc, and_false,
      false_or, List.mem_filter, decide_eq_true_eq]
    constructor
    · exact fun hm => hm.1
    · intro hm
      refine ⟨hm, ?_⟩
      rintro rfl
      -- the entry that `connections_[connName] =` overwrites would have the same name
      exact h.name_fresh hbound hm
  keys hkeys := by
    simp only [makeConnection, insertConnection, note, List.map_cons, List.nodup_cons]
    refine ⟨?_, hkeys.sublist (List.filter_sublist.map Prod.fst)⟩
    intro hmem
    obtain ⟨p, hp, heq⟩ := List.mem_map.mp hmem
    obtain ⟨-, hne⟩ := List.mem_filter.mp hp
    simp [heq] at hne

/-- A new connection is ready to be established: its fd is in no poller. -/
theorem ServerInv.ready_makeConnection [Fintype L] (h : ServerInv cfg s) {sockfd : Int}
    (hfd : s.unusedFd sockfd = true) (ioLoop : L) :
    Ready cfg (s.makeConnection cfg sockfd ioLoop) s.accepted 1 ∧
      (s.makeConnection cfg sockfd ioLoop).todoOf s.accepted = none := by
  obtain ⟨hqueued, hactive, hdispatch, hnone⟩ := h.not_yet
  have hcalls : (s.makeConnection cfg sockfd ioLoop).callsOf s.accepted =
      [(cfg.loop_, .newConnection)] := by
    rw [makeConnection, callsOf_note, if_pos rfl]
    show s.callsOf s.accepted ++ _ = _
    rw [hnone]
    rfl
  have hself := conns_makeConnection cfg s sockfd ioLoop
  have htodo : (s.makeConnection cfg sockfd ioLoop).todoOf s.accepted = none := by
    cases hd : (s.makeConnection cfg sockfd ioLoop).dispatch
        ((s.makeConnection cfg sockfd ioLoop).conns s.accepted).loop_ with
    | none => exact todoOf_none hd
    | some d => exact todoOf_ne hd (hdispatch _ d hd)
  -- the owner of an entry is held, and the kernel does not hand out its fd
  have hentries : (s.loops ioLoop).poller.interest sockfd = none ∧
      (s.loops ioLoop).poller.channels_ sockfd = none := by
    apply h.owned
    intro c' hc' hn _ heq
    have hunused := List.all_eq_true.mp hfd c' (List.mem_range.mpr hc')
    simp [h.held hc' hn, heq] at hunused
  refine ⟨⟨⟨?_, ?_⟩, ?_, ?_, hqueued, ?_, ?_⟩, htodo⟩
  · rw [stage, lifeCalls, hcalls]
    rfl
  · intro l
    rw [hcalls]
    apply atEach_of_not_mem
    simp
  · rw [stage, lifeCalls, hcalls]
    rfl
  · have hview : (s.makeConnection cfg sockfd ioLoop).view s.accepted =
        { ptr := s.accepted
          conn := { TcpConnection.new sockfd with
            writeCompleteCallback_ := cfg.writeCompleteCallback_ }
          poller := (s.loops ioLoop).poller
          queue := (s.loops ioLoop).pendingFunctors_
          trace := [] } := by
      rw [view, hself]
      rfl
    rw [hview]
    refine ⟨⟨hentries.1, hentries.2⟩, rfl, rfl, rfl, ?_, ?_, ?_⟩
    · exact Buffer.readable_new _
    · exact Buffer.wf_new _
    · exact Buffer.wf_new _
  · intro todo hsome
    rw [htodo] at hsome
    cases hsome
  · exact hactive _

/-- On another loop than the server's, `connectEstablished` is queued. -/
theorem Ready.queueEstablish (h : Ready cfg s c 1) (htodo : s.todoOf c = none) :
    Advances cfg c 1 s (s.queueInLoop (s.conns c).loop_ c .connectEstablished) := by
  have hframe := frame_queueInLoop s (s.conns c).loop_ c (f := .connectEstablished) rfl
    (s.conns c).loop_ (s.conns c).conn.channel_.fd_
  have htodo' : (s.queueInLoop (s.conns c).loop_ c .connectEstablished).todoOf c = none := by
    rw [← htodo]
    exact todoOf_congr rfl (phase_queueInLoop _ _ _ _ _)
  have hstage : (s.queueInLoop (s.conns c).loop_ c .connectEstablished).stage c = 1 := h.stage
  refine ⟨hframe, ⟨rfl, rfl, rfl, rfl, rfl⟩, ⟨⟨h.lifeCalls, h.events⟩, ?_, ?_, ?_, ?_⟩,
    hstage⟩
  · rw [hstage]
    exact life_queueInLoop h.life _ _
  · intro l
    rw [hstage, lifeQueued_queueInLoop s _ l c rfl, h.queued l]
    rfl
  · intro todo hsome
    rw [htodo'] at hsome
    cases hsome
  · exact fun hmem => absurd ((hframe.active _).subset hmem) h.active

/-- The invariant after a connection was made and taken on. -/
theorem ServerInv.made (h : ServerInv cfg s) {sockfd : Int} {ioLoop : L} {n : Nat} [Fintype L]
    (hfd : s.unusedFd sockfd = true) (hbound : s.accepted + 1 < 2 ^ 31)
    (hadv : Advances cfg s.accepted n (s.makeConnection cfg sockfd ioLoop) s') (hn : n ≤ 2)
    (hconnections : s'.connections_ = (s.makeConnection cfg sockfd ioLoop).connections_) :
    ServerInv cfg s' := by
  have hself := conns_makeConnection cfg s sockfd ioLoop
  have hframe := hadv.frame
  have hid := hadv.sameId
  have hloop' := hid.loop
  have hname' := hid.name
  have hfd' := hid.fd
  rw [hself] at hframe hloop' hname' hfd'
  have hfdeq : (s'.conns s.accepted).conn.channel_.fd_ = sockfd := hfd'
  have hframe' := (h.frame_makeConnection hbound sockfd ioLoop).trans hframe
  have hstage₀ : s.stage s.accepted = 0 := by
    rw [stage, lifeCalls, h.not_yet.2.2.2]
    rfl
  apply h.of_frame (c := s.accepted) (hfdeq ▸ hframe') hloop'
  · exact fun hlt => absurd hlt (Nat.lt_irrefl _)
  · refine .inl ⟨hstage₀.trans_ne (by decide), ?_⟩
    intro c' hc' _ hn' heq
    -- the system gives an fd out again only when its owner is gone
    have hunused := List.all_eq_true.mp hfd c' (List.mem_range.mpr hc')
    simp [h.held hc' hn', heq.trans hfdeq] at hunused
  · intro hlast
    have hlast' := hadv.stage.symm.trans hlast
    omega
  · intro c'
    rw [hid.accepted]
    exact Nat.lt_succ_iff_lt_or_eq
  · rw [hid.nextConnId, hid.accepted]
    show s.nextConnId_ + 1 = BitVec.ofNat 32 (s.accepted + 1 + 1)
    rw [h.nextConnId, BitVec.ofNat_add (s.accepted + 1) 1]
    rfl
  · rw [hid.accepted]
    exact hbound
  · exact hadv.conn
  · rw [hname', h.nextConnId]
  · intro name
    rw [hconnections, hname', hadv.stage]
    simp only [makeConnection, insertConnection, note, List.mem_cons, Prod.mk.injEq, and_true,
      List.mem_filter]
    constructor
    · rintro (rfl | ⟨hmem, -⟩)
      · exact ⟨by omega, rfl⟩
      · -- the id of the new connection is in no older entry
        exact absurd ((h.map _ _).mp hmem).1 (Nat.lt_irrefl _)
    · exact fun hm => .inl hm.2

/-- **A connection is accepted.** -/
theorem ServerInv.newConnection [Fintype L] (h : ServerInv cfg s) {sockfd : Int}
    (hfd : s.unusedFd sockfd = true) (hbound : s.accepted + 1 < 2 ^ 31) (ioLoop : L) :
    ∃ t, s.newConnection cfg sockfd ioLoop = some t ∧ ServerInv cfg t := by
  obtain ⟨hready, htodo⟩ := h.ready_makeConnection hfd ioLoop
  have hloop : ((s.makeConnection cfg sockfd ioLoop).conns s.accepted).loop_ = ioLoop := by
    rw [conns_makeConnection]
  unfold TcpServer.newConnection
  by_cases hbase : ioLoop = cfg.loop_
  · obtain ⟨t, hrun, hadv, hconnections⟩ := hready.connectEstablished
    rw [hloop, hbase] at hrun
    refine ⟨t, ?_, h.made hfd hbound hadv (by decide) hconnections⟩
    simp only [hbase, if_true]
    exact hrun
  · have hadv := hready.queueEstablish htodo
    rw [hloop] at hadv
    refine ⟨_, ?_, h.made hfd hbound hadv (by decide) rfl⟩
    simp only [hbase, if_false]

/-! ## §4 The loop itself -/

/-- A loop goes on to another phase with the same functors before it, and with no dispatch. -/
theorem ServerInv.setLoop (h : ServerInv cfg s) {l : L} {loop : ServerLoop}
    (hpoller : loop.poller = (s.loops l).poller) (hqueued : loop.queued = (s.loops l).queued)
    (hdispatch : loop.dispatch = (s.loops l).dispatch)
    (hactive : loop.active = (s.loops l).active) : ServerInv cfg (s.setLoop l loop) := by
  have hpoller' : ∀ l', ((s.setLoop l loop).loops l').poller = (s.loops l').poller := by
    intro l'
    rw [loops_setLoop]
    split
    · rename_i heq
      rw [heq, hpoller]
    · rfl
  have hqueued' : ∀ l', (s.setLoop l loop).queued l' = s.queued l' := by
    intro l'
    rw [TcpServer.queued, loops_setLoop]
    split
    · rename_i heq
      rw [heq, hqueued]
      rfl
    · rfl
  have hdispatch' : ∀ l', (s.setLoop l loop).dispatch l' = s.dispatch l' := by
    intro l'
    rw [TcpServer.dispatch, loops_setLoop]
    split
    · rename_i heq
      rw [heq, hdispatch]
      rfl
    · rfl
  have hactive' : ∀ l', (s.setLoop l loop).active l' = s.active l' := by
    intro l'
    rw [TcpServer.active, loops_setLoop]
    split
    · rename_i heq
      rw [heq, hactive]
      rfl
    · rfl
  -- no connection can tell the difference
  have hsame : ∀ c, SameFor c s (s.setLoop l loop) := by
    intro c
    refine ⟨rfl, ?_, ?_, ?_, ?_, rfl⟩
    · intro _ hagrees
      have hpoller'' : ((s.setLoop l loop).view c).poller = (s.view c).poller := hpoller' _
      rw [ConnIo.Agrees, hpoller'']
      exact hagrees
    · intro l'
      rw [lifeQueued, hqueued']
      rfl
    · show ((_ : Option Dispatch).filter _).map _ = _
      rw [hdispatch']
      rfl
    · intro hmem
      rw [hactive'] at hmem
      exact hmem
  refine ⟨fun c hc => (h.conns c hc).congr (hsame c), h.name, h.nextConnId, h.bound, h.distinct,
    ?_, ?_, ?_, ?_, ?_, h.map, h.keys, h.calls⟩
  · intro l' fd hfree
    rw [hpoller']
    exact h.owned l' fd hfree
  · intro l' p hp
    rw [hqueued'] at hp
    exact h.queued l' p hp
  · intro l'
    rw [hactive']
    exact h.active_nodup l'
  · intro l' c hc
    rw [hactive'] at hc
    exact h.active l' c hc
  · intro l' d hd
    rw [hdispatch'] at hd
    exact h.dispatch l' d hd

/-- The connection with another `revents_`. -/
def setRevents (x : ServerConn L) (revents : EventMask) : ServerConn L :=
  { x with conn := { x.conn with channel_ := { x.conn.channel_ with revents_ := revents } } }

omit [DecidableEq L] in
/-- The channels that `fillActiveChannels` lists. -/
theorem fillActiveChannels_snd (poller : EPollPoller ConnId) (conns : ConnId → ServerConn L)
    (events : List (Int × EventMask)) :
    (fillActiveChannels poller conns events).2 =
      (events.map Prod.fst).filterMap fun fd => (poller.interest fd).map Prod.snd := by
  induction events generalizing conns with
  | nil => rfl
  | cons e events ih =>
    obtain ⟨fd, revents⟩ := e
    cases hentry : poller.interest fd with
    | none =>
      simp only [fillActiveChannels, hentry, List.map_cons, List.filterMap_cons, Option.map_none]
      exact ih conns
    | some entry =>
      simp only [fillActiveChannels, hentry, List.map_cons, List.filterMap_cons, Option.map_some]
      exact congrArg (entry.2 :: ·) (ih _)

omit [DecidableEq L] in
/-- The channels listed get a mask that was reported, and the others keep theirs. -/
theorem fillActiveChannels_fst (poller : EPollPoller ConnId) (conns : ConnId → ServerConn L)
    {events : List (Int × EventMask)} {P : EventMask → Prop} (hP : ∀ e ∈ events, P e.2)
    (c : ConnId) :
    ∃ revents, (fillActiveChannels poller conns events).1 c = setRevents (conns c) revents ∧
      ((c ∈ (fillActiveChannels poller conns events).2 ∧ P revents) ∨
        (c ∉ (fillActiveChannels poller conns events).2 ∧
          revents = (conns c).conn.channel_.revents_)) := by
  induction events generalizing conns with
  | nil => exact ⟨_, rfl, .inr ⟨List.not_mem_nil, rfl⟩⟩
  | cons e events ih =>
    obtain ⟨fd, revents⟩ := e
    have hP' : ∀ e ∈ events, P e.2 := fun e he => hP e (List.mem_cons_of_mem _ he)
    cases hentry : poller.interest fd with
    | none =>
      simp only [fillActiveChannels, hentry]
      exact ih conns hP'
    | some entry =>
      simp only [fillActiveChannels, hentry]
      obtain ⟨revents', heq, hcases⟩ := ih (Function.update conns entry.2
        (setRevents (conns entry.2) revents)) hP'
      by_cases hc : c = entry.2
      · -- the channel is listed here; it may be listed again
        subst hc
        rw [Function.update_self] at heq hcases
        refine ⟨revents', heq, .inl ⟨List.mem_cons_self, ?_⟩⟩
        rcases hcases with ⟨-, hrevents⟩ | ⟨-, rfl⟩
        · exact hrevents
        · exact hP _ List.mem_cons_self
      · rw [Function.update_of_ne hc] at heq hcases
        refine ⟨revents', heq, ?_⟩
        rcases hcases with ⟨hmem, hrevents⟩ | ⟨hmem, hsame⟩
        · exact .inl ⟨List.mem_cons_of_mem _ hmem, hrevents⟩
        · exact .inr ⟨fun hmem' => (List.mem_cons.mp hmem').elim hc hmem, hsame⟩

/-- What a poll of loop `l` changes: the masks and the list of its active channels. -/
structure Polled (l : L) (activeChannels : List ConnId) (s s' : TcpServer L) : Prop where
  conns : ∀ c, ∃ revents, s'.conns c = setRevents (s.conns c) revents ∧
    ((c ∈ activeChannels ∧ reportable revents = true) ∨
      (c ∉ activeChannels ∧ revents = (s.conns c).conn.channel_.revents_))
  poller : ∀ l', (s'.loops l').poller = (s.loops l').poller
  queued : ∀ l', s'.queued l' = s.queued l'
  idle : s.dispatch l = none
  dispatch : ∀ l', s'.dispatch l' = s.dispatch l'
  active : ∀ l', s'.active l' = if l' = l then activeChannels else s.active l'
  accepted : s'.accepted = s.accepted
  nextConnId : s'.nextConnId_ = s.nextConnId_
  connections : s'.connections_ = s.connections_
  calls : s'.calls = s.calls

theorem polled_poll {l : L} {events : List (Int × EventMask)}
    (hphase : (s.loops l).phase = .polling) (hreport : ∀ e ∈ events, reportable e.2 = true) :
    Polled l (fillActiveChannels (s.loops l).poller s.conns events).2 s (s.poll l events) where
  conns := fillActiveChannels_fst (P := fun revents => reportable revents = true)
    (s.loops l).poller s.conns hreport
  poller l' := poller_setPhase { s with conns := _ } l l' _
  queued l' := by
    rw [queued, TcpServer.poll, loops_setPhase]
    split
    · rename_i hl
      subst hl
      simp [queued, ServerLoop.queued, hphase]
    · rfl
  idle := by simp [dispatch, ServerLoop.dispatch, hphase]
  dispatch l' := by
    rw [TcpServer.dispatch, TcpServer.poll, loops_setPhase]
    split
    · rename_i hl
      subst hl
      simp [TcpServer.dispatch, ServerLoop.dispatch, hphase]
    · rfl
  active l' := by
    rw [active, TcpServer.poll, loops_setPhase]
    split <;> rfl
  accepted := rfl
  nextConnId := rfl
  connections := rfl
  calls := rfl

omit [DecidableEq L] in
theorem setRevents_same {x y : ServerConn L} {revents : EventMask} (h : y = setRevents x revents) :
    y.loop_ = x.loop_ ∧ y.name_ = x.name_ ∧ y.conn.channel_.fd_ = x.conn.channel_.fd_ := by
  subst h
  exact ⟨rfl, rfl, rfl⟩

/-- One connection after a poll. -/
theorem ConnInv.polled (h : ConnInv cfg s c) {l : L} {activeChannels : List ConnId}
    (hp : Polled l activeChannels s s')
    (hlisted : c ∈ activeChannels → s.stage c = 2 ∧ (s.conns c).loop_ = l) : ConnInv cfg s' c := by
  obtain ⟨revents, heq, hcases⟩ := hp.conns c
  obtain ⟨hloop, -, -⟩ := setRevents_same heq
  have hcalls : s'.callsOf c = s.callsOf c := by
    rw [callsOf, hp.calls]
    rfl
  have htodo : s'.todoOf c = s.todoOf c := by
    rw [todoOf, hp.dispatch, hloop]
    rfl
  refine ⟨⟨?_, ?_⟩, ?_, ?_, ?_, ?_⟩
  · rw [TcpServer.lifeCalls, hcalls, hloop, stage_congr hcalls]
    exact h.lifeCalls
  · rw [hcalls, hloop]
    exact h.events
  · have hpoller : (s'.view c).poller = (s.view c).poller := by
      show (s'.loops (s'.conns c).loop_).poller = _
      rw [hp.poller, hloop]
      rfl
    have hconn : (s'.view c).conn = ((s.view c).setRevents revents).conn :=
      congrArg ServerConn.conn heq
    have hlife := h.life.setRevents revents
    rw [stage_congr hcalls]
    refine ConnIo.Life.congr hlife rfl hconn ?_
    intro hn
    rw [ConnIo.Agrees, hpoller, hconn]
    exact hlife.agrees hn
  · intro l'
    rw [stage_congr hcalls, htodo, hloop, lifeQueued, hp.queued]
    exact h.queued l'
  · intro todo hsome
    rw [stage_congr hcalls]
    exact h.todo todo (htodo.symm.trans hsome)
  · intro hmem
    have hrevents : (s'.conns c).conn.channel_.revents_ = revents :=
      congrArg (fun x : ServerConn L => x.conn.channel_.revents_) heq
    rw [hp.active, hloop] at hmem
    rw [stage_congr hcalls, htodo, hrevents]
    split at hmem
    · -- reported now
      rename_i hl
      rcases hcases with ⟨-, hok⟩ | ⟨hnot, -⟩
      · exact ⟨(hlisted hmem).1, todoOf_none (hl ▸ hp.idle), hok⟩
      · exact absurd hmem hnot
    · rename_i hl
      rcases hcases with ⟨hmem', -⟩ | ⟨-, rfl⟩
      · -- it is on another loop, so it was reported by an earlier poll there
        exact absurd (hlisted hmem').2 hl
      · exact h.active hmem

/-- **A poll lists open connections of the loop, each once.** -/
theorem ServerInv.poll (h : ServerInv cfg s) {l : L} {events : List (Int × EventMask)}
    (hphase : (s.loops l).phase = .polling) (hnodup : (events.map Prod.fst).Nodup)
    (hreport : ∀ e ∈ events, reportable e.2 = true) : ServerInv cfg (s.poll l events) := by
  -- what epoll reports is registered, and only open connections are
  have hlisted : ∀ c, c ∈ (fillActiveChannels (s.loops l).poller s.conns events).2 →
      c < s.accepted ∧ s.stage c = 2 ∧ (s.conns c).loop_ = l := by
    intro c hmem
    rw [fillActiveChannels_snd] at hmem
    obtain ⟨fd, -, hsome⟩ := List.mem_filterMap.mp hmem
    obtain ⟨⟨mask, c'⟩, hentry, rfl⟩ := Option.map_eq_some_iff.mp hsome
    obtain ⟨hc, hn, hl, -⟩ := h.registered hentry
    exact ⟨hc, hn, hl⟩
  -- two fds of one report are those of two connections
  have hnodup' : (fillActiveChannels (s.loops l).poller s.conns events).2.Nodup := by
    rw [fillActiveChannels_snd]
    apply hnodup.filterMap
    intro fd fd' c hc hc'
    obtain ⟨⟨mask, c₁⟩, hentry, rfl⟩ := Option.map_eq_some_iff.mp hc
    obtain ⟨⟨mask', c₂⟩, hentry', heq⟩ := Option.map_eq_some_iff.mp hc'
    obtain rfl : c₂ = c₁ := heq
    exact (h.registered hentry).2.2.2.symm.trans (h.registered hentry').2.2.2
  have hp := polled_poll (s := s) hphase hreport
  generalize (fillActiveChannels (s.loops l).poller s.conns events).2 = activeChannels at *
  generalize s.poll l events = t at *
  have hsame : ∀ c, (t.conns c).loop_ = (s.conns c).loop_ ∧ (t.conns c).name_ = (s.conns c).name_ ∧
      (t.conns c).conn.channel_.fd_ = (s.conns c).conn.channel_.fd_ := by
    intro c
    obtain ⟨revents, heq, -⟩ := hp.conns c
    exact setRevents_same heq
  have hstage : ∀ c, t.stage c = s.stage c := by
    intro c
    apply stage_congr
    rw [callsOf, hp.calls]
    rfl
  refine ⟨?_, ?_, ?_, ?_, ?_, ?_, ?_, ?_, ?_, ?_, ?_, ?_, ?_⟩
  · intro c hc
    exact (h.conns c (hp.accepted ▸ hc)).polled hp (fun hmem => (hlisted c hmem).2)
  · intro c hc
    exact (hsame c).2.1.trans (h.name c (hp.accepted ▸ hc))
  · rw [hp.nextConnId, hp.accepted]
    exact h.nextConnId
  · rw [hp.accepted]
    exact h.bound
  · intro c c' hc hc' hn hn' hfd
    rw [hp.accepted] at hc hc'
    rw [hstage] at hn hn'
    exact h.distinct c c' hc hc' hn hn' ((hsame c).2.2.symm.trans (hfd.trans (hsame c').2.2))
  · intro l' fd hfree
    rw [hp.poller]
    apply h.owned l' fd
    intro c hc hn hl hfd
    exact hfree c (hp.accepted ▸ hc) ((hstage c).trans_ne hn) ((hsame c).1.trans hl)
      ((hsame c).2.2.trans hfd)
  · intro l' p hmem
    rw [hp.queued] at hmem
    rw [hp.accepted]
    exact h.queued l' p hmem
  · intro l'
    rw [hp.active]
    split
    · exact hnodup'
    · exact h.active_nodup l'
  · intro l' c hmem
    rw [hp.active] at hmem
    rw [hp.accepted, (hsame c).1]
    split at hmem
    · rename_i hl
      obtain ⟨hc, -, hl'⟩ := hlisted c hmem
      exact ⟨hc, hl'.trans hl.symm⟩
    · exact h.active l' c hmem
  · intro l' d hd
    rw [hp.dispatch] at hd
    rw [hp.accepted, (hsame d.conn).1]
    exact h.dispatch l' d hd
  · intro name c
    rw [hp.connections, hp.accepted, hstage, (hsame c).2.1]
    exact h.map name c
  · rw [hp.connections]
    exact h.keys
  · rw [hp.calls, hp.accepted]
    exact h.calls

end TcpServer

end RainWebServer.Net
