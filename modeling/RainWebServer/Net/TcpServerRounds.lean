import RainWebServer.Lib.LeadsTo
import RainWebServer.Net.TcpServerRuns

/-!
# Rounds of a Server's Loops

`tcpServer_lifecycle` says in which order the calls of a connection's life come, and where. This
module says that they come: a loop that goes round once makes the next call of every connection
that waits for it, whatever the other loops and the users do meanwhile. And it says what is left
when all loops wait in their poll: exactly the open connections.

## Main results

- `step_spec` : what a step does to the loops' phases
- `tcpServer_rounds` : one round establishes a connection, two rounds destroy a closed one
- `tcpServer_at_rest` : at rest nothing is left of the connections that were closed
-/

namespace RainWebServer.Net

open RainWebServer.Lib

/-- The call of its life that a functor makes. -/
def ConnFunctor.call : ConnFunctor → Option ServerCall
  | .connectEstablished => some .connectEstablished
  | .removeConnectionInLoop => some .removeConnectionInLoop
  | .connectDestroyed => some .connectDestroyed
  | _ => none

/-- The loop on whose thread the step is taken. -/
def ServerAct.loop {L : Type} (cfg : ServerConfig L) : ServerAct L → L
  | .newConnection _ _ => cfg.loop_
  | .poll l _ | .handleEvent l | .handler l _ _ | .endEvent l | .doPendingFunctors l
  | .functor l _ _ _ | .endFunctors l | .user l _ _ => l

/-- How many callbacks can still follow. A read may be the end of the stream, or an error. -/
def HandlerOp.weight : HandlerOp → Nat
  | .handleRead => 3
  | _ => 1

/-- The callbacks of a dispatch, with those that they make. -/
def todoWeight (todo : List HandlerOp) : Nat := todo.foldr (fun op n => op.weight + n) 0

theorem todoWeight_append (ops todo : List HandlerOp) :
    todoWeight (ops ++ todo) = todoWeight ops + todoWeight todo := by
  induction ops with
  | nil => simp [todoWeight]
  | cons op ops ih =>
    simp only [List.cons_append, todoWeight, List.foldr_cons] at ih ⊢
    omega

theorem todoWeight_handleEventWithGuard (revents : EventMask) :
    todoWeight (handleEventWithGuard revents) ≤ 7 := by
  simp only [handleEventWithGuard, todoWeight_append]
  have hite : ∀ (b : Bool) (ops : List HandlerOp),
      todoWeight (if b then ops else []) ≤ todoWeight ops := by
    intro b ops
    cases b with
    | true => exact Nat.le_refl _
    | false => exact Nat.zero_le _
  have hclose := hite (revents.has EPOLLHUP && !revents.has EPOLLIN) [.handleClose, .closeCallback]
  have herror := hite (revents.has EPOLLERR) [.handleError]
  have hread := hite (revents.has (EPOLLIN ||| EPOLLPRI)) [.handleRead]
  have hwrite := hite (revents.has EPOLLOUT) [.handleWrite]
  simp only [todoWeight, List.foldr_cons, List.foldr_nil, HandlerOp.weight] at *
  omega

/-- A callback weighs more than those that it makes. -/
theorem todoWeight_runHandler {io io' : ConnIo ConnId} {r : ReadResult} {w : WriteResult}
    {op : HandlerOp} {ops : List HandlerOp} (h : io.runHandler r w op = some (io', ops)) :
    todoWeight ops < op.weight := by
  cases op with
  | handleRead =>
    cases r with
    | error =>
      cases h
      decide
    | bytes data =>
      simp only [ConnIo.runHandler, ConnIo.handleRead] at h
      split at h
      · obtain ⟨buffer, -, h⟩ := Option.bind_eq_some_iff.mp h
        cases h
        decide
      · cases h
        decide
  | handleClose | handleWrite =>
    obtain ⟨io'', -, h⟩ := Option.map_eq_some_iff.mp h
    cases h
    decide
  | closeCallback | handleError =>
    cases h
    decide

namespace TcpServer

variable {L : Type} [DecidableEq L] {cfg : ServerConfig L} {s t u : TcpServer L} {c : ConnId}

/-! ## §1 What a step leaves in place -/

/-- A piece of a step: it moves one loop at most to another phase, takes back no call, and leaves
    the connections on their loops. -/
structure Spares (moved : Option L) (s t : TcpServer L) : Prop where
  phase : ∀ l, moved ≠ some l → (t.loops l).phase = (s.loops l).phase
  calls : s.calls <+: t.calls
  accepted : s.accepted ≤ t.accepted
  loop : ∀ c, c < s.accepted → (t.conns c).loop_ = (s.conns c).loop_

omit [DecidableEq L] in
theorem Spares.refl (moved : Option L) (s : TcpServer L) : Spares moved s s :=
  ⟨fun _ _ => rfl, List.prefix_rfl, Nat.le_refl _, fun _ _ => rfl⟩

omit [DecidableEq L] in
theorem Spares.trans {moved : Option L} (h₁ : Spares moved s t) (h₂ : Spares moved t u) :
    Spares moved s u where
  phase l hl := (h₂.phase l hl).trans (h₁.phase l hl)
  calls := h₁.calls.trans h₂.calls
  accepted := Nat.le_trans h₁.accepted h₂.accepted
  loop c hc := (h₂.loop c (Nat.lt_of_lt_of_le hc h₁.accepted)).trans (h₁.loop c hc)

omit [DecidableEq L] in
/-- What moves no loop moves one at most. -/
theorem Spares.weaken (h : Spares none s t) (moved : Option L) : Spares moved s t :=
  ⟨fun l _ => h.phase l (by simp), h.calls, h.accepted, h.loop⟩

omit [DecidableEq L] in
theorem spares_note (s : TcpServer L) (l : L) (c : ConnId) (call : ServerCall) :
    Spares none s (s.note l c call) :=
  ⟨fun _ _ => rfl, List.prefix_append _ _, Nat.le_refl _, fun _ _ => rfl⟩

theorem spares_putView (s : TcpServer L) (c : ConnId) (io : ConnIo ConnId) :
    Spares none s (s.putView c io) := by
  refine ⟨fun l _ => phase_putView s c io l, List.prefix_rfl, Nat.le_refl _, fun c' _ => ?_⟩
  rw [conns_putView]
  split
  · rename_i heq
    rw [heq]
  · rfl

theorem spares_queueInLoop (s : TcpServer L) (l : L) (c : ConnId) (f : ConnFunctor) :
    Spares none s (s.queueInLoop l c f) :=
  ⟨fun l' _ => phase_queueInLoop s l c f l', List.prefix_rfl, Nat.le_refl _, fun _ _ => rfl⟩

theorem spares_setPhase (s : TcpServer L) (l : L) (phase : LoopPhase) :
    Spares (some l) s (s.setPhase l phase) := by
  refine ⟨fun l' hl => ?_, List.prefix_rfl, Nat.le_refl _, fun _ _ => rfl⟩
  rw [loops_setPhase, if_neg]
  exact fun heq => hl (congrArg some heq.symm)

theorem spares_connectEstablished {l : L} (h : s.connectEstablished l c = some t) :
    Spares none s t := by
  obtain ⟨io, -, h⟩ := Option.bind_eq_some_iff.mp h
  cases h
  exact (spares_putView s c io).trans (spares_note _ _ _ _)

theorem spares_connectDestroyed {l : L} (h : s.connectDestroyed l c = some t) :
    Spares none s t := by
  obtain ⟨io, -, h⟩ := Option.bind_eq_some_iff.mp h
  cases h
  exact (spares_putView s c io).trans (spares_note _ _ _ _)

theorem spares_removeConnectionInLoop (s : TcpServer L) (l : L) (c : ConnId) :
    Spares none s (s.removeConnectionInLoop l c) := by
  have herase : Spares none s (s.eraseConnection (s.conns c).name_) :=
    ⟨fun _ _ => rfl, List.prefix_rfl, Nat.le_refl _, fun _ _ => rfl⟩
  exact (herase.trans (spares_queueInLoop _ _ _ _)).trans (spares_note _ _ _ _)

theorem spares_removeConnection (s : TcpServer L) (l : L) (c : ConnId) :
    Spares none s (s.removeConnection cfg l c) := by
  unfold removeConnection
  split
  · exact spares_removeConnectionInLoop s l c
  · exact spares_queueInLoop s _ c _

omit [DecidableEq L] in
theorem spares_makeConnection (s : TcpServer L) (sockfd : Int) (ioLoop : L) :
    Spares none s (s.makeConnection cfg sockfd ioLoop) := by
  refine ⟨fun _ _ => rfl, List.prefix_append _ _, Nat.le_succ _, fun c hc => ?_⟩
  exact congrArg ServerConn.loop_ (Function.update_of_ne (Nat.ne_of_lt hc) _ _)

theorem spares_newConnection {sockfd : Int} {ioLoop : L}
    (h : s.newConnection cfg sockfd ioLoop = some t) : Spares none s t := by
  unfold newConnection at h
  split at h
  · exact (spares_makeConnection s sockfd ioLoop).trans (spares_connectEstablished h)
  · cases h
    exact (spares_makeConnection s sockfd ioLoop).trans (spares_queueInLoop _ _ _ _)

theorem spares_runFunctor {l : L} {bytes file : List Byte} {w : WriteResult} {f : ConnFunctor}
    (h : s.runFunctor l bytes file w c f = some t) : Spares none s t := by
  cases f with
  | connectEstablished => exact spares_connectEstablished h
  | connectDestroyed => exact spares_connectDestroyed h
  | removeConnectionInLoop =>
    cases h
    exact spares_removeConnectionInLoop s l c
  | sendInLoop data len =>
    obtain ⟨io, -, rfl⟩ := Option.map_eq_some_iff.mp h
    exact spares_putView s c io
  | shutdownInLoop | sendFileInLoop _ _ _ =>
    cases h
    exact spares_putView s c _
  | writeCompleteCallback | highWaterMarkCallback _ =>
    cases h
    exact .refl none s

omit [DecidableEq L] in
/-- `fillActiveChannels` stores into channels only. -/
theorem spares_fillActiveChannels (poller : EPollPoller ConnId) (conns : ConnId → ServerConn L)
    (events : List (Int × EventMask)) (c : ConnId) :
    ((fillActiveChannels poller conns events).1 c).loop_ = (conns c).loop_ := by
  induction events generalizing conns with
  | nil => rfl
  | cons e events ih =>
    obtain ⟨fd, revents⟩ := e
    rw [fillActiveChannels]
    split
    · exact ih conns
    · refine (ih _).trans ?_
      rw [Function.update_apply]
      split
      · rename_i heq
        rw [heq]
      · rfl

/-! ## §2 What a step does to its loop -/

/-- The phases of the loop before and after its step. -/
inductive PhaseStep (cfg : ServerConfig L) (s t : TcpServer L) : ServerAct L → Prop where
  | poll {l : L} {events : List (Int × EventMask)} (activeChannels : List ConnId)
      (before : (s.loops l).phase = .polling)
      (after : (t.loops l).phase = .dispatching activeChannels none) :
      PhaseStep cfg s t (.poll l events)
  | handleEvent {l : L} (c : ConnId) (activeChannels : List ConnId) (d : Dispatch)
      (before : (s.loops l).phase = .dispatching (c :: activeChannels) none) (conn : d.conn = c)
      (light : todoWeight d.todo ≤ 7)
      (after : (t.loops l).phase = .dispatching activeChannels (some d)) :
      PhaseStep cfg s t (.handleEvent l)
  | handler {l : L} {r : ReadResult} {w : WriteResult} (activeChannels : List ConnId)
      (d d' : Dispatch) (before : (s.loops l).phase = .dispatching activeChannels (some d))
      (conn : d'.conn = d.conn) (lighter : todoWeight d'.todo < todoWeight d.todo)
      (after : (t.loops l).phase = .dispatching activeChannels (some d')) :
      PhaseStep cfg s t (.handler l r w)
  | endEvent {l : L} (activeChannels : List ConnId) (d : Dispatch)
      (before : (s.loops l).phase = .dispatching activeChannels (some d))
      (after : (t.loops l).phase = .dispatching activeChannels none) :
      PhaseStep cfg s t (.endEvent l)
  | newConnection {sockfd : Int} {ioLoop : L} (activeChannels : List ConnId)
      (before : (s.loops cfg.loop_).phase = .dispatching activeChannels none)
      (after : (t.loops cfg.loop_).phase = (s.loops cfg.loop_).phase) :
      PhaseStep cfg s t (.newConnection sockfd ioLoop)
  | doPendingFunctors {l : L} (before : (s.loops l).phase = .dispatching [] none)
      (after : (t.loops l).phase = .runningFunctors [] (s.loops l).pendingFunctors_) :
      PhaseStep cfg s t (.doPendingFunctors l)
  | functor {l : L} {bytes file : List Byte} {w : WriteResult}
      (ran rest : List (ConnId × ConnFunctor)) (p : ConnId × ConnFunctor)
      (before : (s.loops l).phase = .runningFunctors ran (p :: rest))
      (after : (t.loops l).phase = .runningFunctors (ran ++ [p]) rest)
      (calls : ∀ call, p.2.call = some call → (l, p.1, call) ∈ t.calls) :
      PhaseStep cfg s t (.functor l bytes file w)
  | endFunctors {l : L} (ran : List (ConnId × ConnFunctor))
      (before : (s.loops l).phase = .runningFunctors ran [])
      (after : (t.loops l).phase = .polling) : PhaseStep cfg s t (.endFunctors l)
  | user {l : L} {c : ConnId} {call : UserCall} (after : (t.loops l).phase = (s.loops l).phase) :
      PhaseStep cfg s t (.user l c call)

/-- The functor notes its call. -/
theorem call_runFunctor {l : L} {bytes file : List Byte} {w : WriteResult} {f : ConnFunctor}
    (h : s.runFunctor l bytes file w c f = some t) {call : ServerCall}
    (hcall : f.call = some call) : (l, c, call) ∈ t.calls := by
  cases f with
  | connectEstablished =>
    cases hcall
    obtain ⟨io, -, h⟩ := Option.bind_eq_some_iff.mp h
    cases h
    exact List.mem_append_right _ List.mem_cons_self
  | connectDestroyed =>
    cases hcall
    obtain ⟨io, -, h⟩ := Option.bind_eq_some_iff.mp h
    cases h
    exact List.mem_append_right _ List.mem_cons_self
  | removeConnectionInLoop =>
    cases hcall
    cases h
    exact List.mem_append_right _ List.mem_cons_self
  | _ => cases hcall

theorem phase_setPhase (s : TcpServer L) (l : L) (phase : LoopPhase) :
    ((s.setPhase l phase).loops l).phase = phase := by
  rw [loops_setPhase, if_pos rfl]

variable [Fintype L]

/-- **What a step does**: it moves its own loop from phase to phase and spares the others. -/
theorem step_spec {a : ServerAct L} (henabled : (tcpServerMachine cfg).enabled s a = true)
    (hstep : (tcpServerMachine cfg).step s a = some t) :
    Spares (some (a.loop cfg)) s t ∧ PhaseStep cfg s t a := by
  replace henabled : s.enabled cfg a = true := henabled
  replace hstep : s.step cfg a = some t := hstep
  cases a with
  | poll l events =>
    simp only [enabled] at henabled
    split at henabled
    · rename_i hphase
      cases hstep
      exact ⟨⟨fun l' hl => (spares_setPhase _ l _).phase l' hl, List.prefix_rfl, Nat.le_refl _,
        fun c _ => spares_fillActiveChannels _ _ _ c⟩, .poll _ hphase (phase_setPhase _ _ _)⟩
    · cases henabled
  | handleEvent l =>
    simp only [TcpServer.step, TcpServer.handleEvent] at hstep
    simp only [enabled] at henabled
    split at henabled
    · rename_i c activeChannels hphase
      simp only [hphase] at hstep
      split at hstep
      · cases hstep
        exact ⟨(spares_setPhase s l _).trans ((spares_note _ _ _ _).weaken _),
          .handleEvent c activeChannels _ hphase rfl (todoWeight_handleEventWithGuard _)
            (phase_setPhase s l _)⟩
      · cases hstep
    · cases henabled
  | handler l r w =>
    simp only [TcpServer.step, TcpServer.handler] at hstep
    simp only [enabled] at henabled
    split at henabled
    · rename_i activeChannels c guard op todo hphase
      simp only [hphase] at hstep
      obtain ⟨⟨io, ops⟩, hrun, hstep⟩ := Option.bind_eq_some_iff.mp hstep
      cases hstep
      have hless : todoWeight (ops ++ todo) < todoWeight (op :: todo) := by
        rw [todoWeight_append]
        exact Nat.add_lt_add_right (todoWeight_runHandler hrun) _
      -- the last piece moves nothing
      have hlast : ∀ v, Spares none ((s.putView c io).setPhase l
          (.dispatching activeChannels (some ⟨c, guard, ops ++ todo⟩))) v →
          Spares (some l) s v ∧ PhaseStep cfg s v (.handler l r w) := by
        intro v hv
        exact ⟨((spares_putView s c io).weaken _).trans
            ((spares_setPhase _ l _).trans (hv.weaken _)),
          .handler activeChannels _ ⟨c, guard, ops ++ todo⟩ hphase rfl hless
            ((hv.phase l (by simp)).trans (phase_setPhase _ _ _))⟩
      split
      · exact hlast _ (spares_note _ l c _)
      · exact hlast _ (spares_removeConnection _ l c)
      · exact hlast _ (.refl none _)
    · cases henabled
  | endEvent l =>
    simp only [TcpServer.step] at hstep
    simp only [enabled] at henabled
    split at henabled
    · rename_i activeChannels c guard hphase
      simp only [hphase] at hstep
      cases hstep
      exact ⟨spares_setPhase s l _, .endEvent activeChannels _ hphase (phase_setPhase s l _)⟩
    · cases henabled
  | newConnection sockfd ioLoop =>
    simp only [enabled] at henabled
    split at henabled
    · rename_i activeChannels hphase
      have hspares := spares_newConnection hstep
      exact ⟨hspares.weaken _, .newConnection activeChannels hphase (hspares.phase _ (by simp))⟩
    · cases henabled
  | doPendingFunctors l =>
    simp only [enabled] at henabled
    split at henabled
    · rename_i hphase
      cases hstep
      refine ⟨⟨fun l' hl => ?_, List.prefix_rfl, Nat.le_refl _, fun _ _ => rfl⟩,
        .doPendingFunctors hphase ?_⟩
      · rw [loops_setLoop, if_neg]
        exact fun heq => hl (congrArg some heq.symm)
      · rw [loops_setLoop, if_pos rfl]
    · cases henabled
  | functor l bytes file w =>
    simp only [TcpServer.step, TcpServer.functor] at hstep
    simp only [enabled] at henabled
    split at henabled
    · rename_i ran p rest hphase
      obtain ⟨c, f⟩ := p
      simp only [hphase] at hstep
      split at hstep
      · have hspares := spares_runFunctor hstep
        exact ⟨(spares_setPhase s l _).trans (hspares.weaken _),
          .functor ran rest (c, f) hphase ((hspares.phase l (by simp)).trans (phase_setPhase _ _ _))
            fun call hcall => call_runFunctor hstep hcall⟩
      · cases hstep
    · cases henabled
  | endFunctors l =>
    simp only [enabled] at henabled
    split at henabled
    · rename_i ran hphase
      cases hstep
      exact ⟨spares_setPhase s l _, .endFunctors ran hphase (phase_setPhase s l _)⟩
    · cases henabled
  | user l c call =>
    obtain ⟨io, -, rfl⟩ := Option.map_eq_some_iff.mp hstep
    exact ⟨(spares_putView s c io).weaken _, .user (phase_putView s c io l)⟩

/-! ## §3 A round of a loop -/

omit [DecidableEq L] [Fintype L] in
theorem HasRun.mono {moved : Option L} (h : Spares moved s t) {call : ServerCall}
    (hrun : s.HasRun c call) : t.HasRun c call := by
  obtain ⟨l, hmem⟩ := hrun
  exact ⟨l, h.calls.subset hmem⟩

theorem hasRun_stable {call : ServerCall} :
    (tcpServerMachine cfg).Stable (ServerInv cfg) (fun s => s.HasRun c call) :=
  fun _ _ _ _ hrun he hs => hrun.mono (step_spec he hs).1

/-- The functor waits in the batch that the loop is running. -/
def Taken (l : L) (c : ConnId) (f : ConnFunctor) (s : TcpServer L) : Prop :=
  ∃ ran rest, (s.loops l).phase = .runningFunctors ran rest ∧ (c, f) ∈ rest

/-- A functor leaves its batch by running. -/
theorem taken_step {l : L} {f : ConnFunctor} {call : ServerCall} {a : ServerAct L}
    (hf : f.call = some call) (henabled : (tcpServerMachine cfg).enabled s a = true)
    (hstep : (tcpServerMachine cfg).step s a = some t) (h : Taken l c f s) :
    t.HasRun c call ∨ Taken l c f t := by
  obtain ⟨ran, rest, hphase, hmem⟩ := h
  obtain ⟨hspares, hmoves⟩ := step_spec henabled hstep
  by_cases hl : a.loop cfg = l
  · subst hl
    cases hmoves with
    | functor ran' rest' p before after calls =>
      obtain ⟨rfl, rfl⟩ := LoopPhase.runningFunctors.inj (hphase.symm.trans before)
      rcases List.mem_cons.mp hmem with rfl | hmem
      · exact .inl ⟨_, calls call hf⟩
      · exact .inr ⟨_, _, after, hmem⟩
    | endFunctors ran' before after =>
      obtain ⟨rfl, rfl⟩ := LoopPhase.runningFunctors.inj (hphase.symm.trans before)
      cases hmem
    | user after => exact .inr ⟨ran, rest, after.trans hphase, hmem⟩
    | newConnection active before after => exact .inr ⟨ran, rest, after.trans hphase, hmem⟩
    | doPendingFunctors before after => cases hphase.symm.trans before
    | handleEvent c active d before conn light after => cases hphase.symm.trans before
    | handler active d d' before conn lighter after => cases hphase.symm.trans before
    | poll active before after => cases hphase.symm.trans before
    | endEvent active d before after => cases hphase.symm.trans before
  · exact .inr ⟨ran, rest, (hspares.phase l (by simpa using hl)).trans hphase, hmem⟩

/-- **A round makes the call** of every connection whose functor was in the queue, if it was not
    made before. -/
theorem round_leadsTo {P : TcpServer L → Prop} {l : L} {f : ConnFunctor} {call : ServerCall}
    (hf : f.call = some call) (hP : (tcpServerMachine cfg).Stable (ServerInv cfg) P)
    (hqueued : ∀ s, ServerInv cfg s → P s → s.HasRun c call ∨ (c, f) ∈ s.queued l) :
    (tcpServerMachine cfg).LeadsTo (ServerInv cfg) P [.doPendingFunctors l, .endFunctors l]
      (fun s => s.HasRun c call) := by
  have hI := (serverInv_invariant cfg).stable
  have htaken : (tcpServerMachine cfg).Stable (ServerInv cfg)
      (fun s => s.HasRun c call ∨ Taken l c f s) := by
    intro s a t _ h he hs
    rcases h with hrun | htaken
    · exact .inl (hrun.mono (step_spec he hs).1)
    · exact taken_step hf he hs htaken
  -- `doPendingFunctors` takes the queue
  have htakes : (tcpServerMachine cfg).LeadsTo (ServerInv cfg) P [.doPendingFunctors l]
      (fun s => s.HasRun c call ∨ Taken l c f s) := by
    refine .action hI (fun s b t hs h he ht => .inl (hP s b t hs h he ht)) ?_ htaken
    intro s t hs h he ht
    obtain ⟨hspares, hmoves⟩ := step_spec he ht
    rcases hqueued s hs h with hrun | hmem
    · exact .inl (hrun.mono hspares)
    · cases hmoves with
      | doPendingFunctors before after =>
        refine .inr ⟨_, _, after, ?_⟩
        simpa [queued, ServerLoop.queued, before] using hmem
  -- and it does not return before all of them ran
  have hruns : (tcpServerMachine cfg).LeadsTo (ServerInv cfg)
      (fun s => s.HasRun c call ∨ Taken l c f s) [.endFunctors l] (fun s => s.HasRun c call) := by
    refine .action hI (fun s b t hs h he ht => .inl (htaken s b t hs h he ht)) ?_ hasRun_stable
    intro s t _ h he ht
    obtain ⟨hspares, hmoves⟩ := step_spec he ht
    rcases h with hrun | ⟨ran, rest, hphase, hmem⟩
    · exact hrun.mono hspares
    · cases hmoves with
      | endFunctors ran' before after =>
        obtain ⟨rfl, rfl⟩ := LoopPhase.runningFunctors.inj (hphase.symm.trans before)
        cases hmem
  exact htakes.trans hI hruns

/-! ## §4 From call to call -/

omit [Fintype L] in
/-- The stage counts the calls that have run. -/
theorem ConnInv.hasRun_iff (h : ConnInv cfg s c) {n : Nat} {l : L} {call : ServerCall}
    (hcall : (lifecycle cfg.loop_ (s.conns c).loop_)[n]? = some (l, call)) :
    s.HasRun c call ↔ n < s.stage c := by
  have hlt : n < 5 := (List.getElem?_eq_some_iff.mp hcall).1
  have hne : call ≠ .handleEvent := by
    rintro rfl
    have hmem := List.mem_of_getElem? hcall
    simp [lifecycle] at hmem
  rw [TcpServer.hasRun_iff s c hne, h.lifeCalls]
  have hle := h.life.le
  generalize s.stage c = k at *
  obtain rfl | rfl | rfl | rfl | rfl | rfl : k = 0 ∨ k = 1 ∨ k = 2 ∨ k = 3 ∨ k = 4 ∨ k = 5 := by
    omega
  all_goals
    obtain rfl | rfl | rfl | rfl | rfl : n = 0 ∨ n = 1 ∨ n = 2 ∨ n = 3 ∨ n = 4 := by omega
    all_goals
      obtain ⟨rfl, rfl⟩ := Prod.mk.inj (Option.some.inj hcall)
      simp [lifecycle]

omit [DecidableEq L] [Fintype L] in
theorem mem_queued_of_life {l : L} {f : ConnFunctor} (h : f ∈ s.lifeQueued l c) :
    (c, f) ∈ s.queued l := by
  obtain ⟨⟨c', f'⟩, hp, rfl⟩ := List.mem_map.mp h
  obtain ⟨hp, hc'⟩ := List.mem_filter.mp hp
  simp only [Bool.and_eq_true, decide_eq_true_eq] at hc'
  exact hc'.1 ▸ hp

/-- The connection was made, for the loop. -/
def On (io : L) (c : ConnId) (s : TcpServer L) : Prop := c < s.accepted ∧ (s.conns c).loop_ = io

omit [DecidableEq L] [Fintype L] in
theorem On.mono {io : L} {moved : Option L} (hs : Spares moved s t) (h : On io c s) : On io c t :=
  ⟨Nat.lt_of_lt_of_le h.1 hs.accepted, (hs.loop c h.1).trans h.2⟩

/-- `handleClose` has run, and the dispatch in which it did is over. -/
def IsClosed (io : L) (c : ConnId) (s : TcpServer L) : Prop :=
  On io c s ∧ s.HasRun c .handleClose ∧ s.todoOf c = none

omit [DecidableEq L] [Fintype L] in
theorem todoOf_eq_none {io : L} (hio : (s.conns c).loop_ = io) : s.todoOf c = none ↔
    ∀ active d, (s.loops io).phase = .dispatching active (some d) → d.conn ≠ c := by
  subst hio
  simp only [todoOf, dispatch, ServerLoop.dispatch, Option.map_eq_none_iff]
  constructor
  · intro h active d hphase
    rw [hphase] at h
    simpa using h
  · intro h
    split
    · rename_i active current hphase
      cases current with
      | none => rfl
      | some d => simpa using h _ _ hphase
    · rfl

/-- A closed connection is not dispatched again. -/
theorem isClosed_stable {io : L} :
    (tcpServerMachine cfg).Stable (ServerInv cfg) (IsClosed io c) := by
  intro s a t hinv h he hs
  obtain ⟨hon, hclose, htodo⟩ := h
  obtain ⟨hspares, hmoves⟩ := step_spec he hs
  refine ⟨hon.mono hspares, hclose.mono hspares, ?_⟩
  have hconn := hinv.conns c hon.1
  have hio := hon.2
  have hio' := (hon.mono hspares).2
  have hstage : 2 < s.stage c := (hconn.hasRun_iff (n := 2) rfl).mp hclose
  by_cases hl : a.loop cfg = io
  · rw [todoOf_eq_none hio] at htodo
    rw [todoOf_eq_none hio']
    subst hl
    cases hmoves with
    | poll active before after => exact fun _ _ h => by cases after.symm.trans h
    | endEvent active d before after => exact fun _ _ h => by cases after.symm.trans h
    | doPendingFunctors before after => exact fun _ _ h => by cases after.symm.trans h
    | functor ran rest p before after calls => exact fun _ _ h => by cases after.symm.trans h
    | endFunctors ran before after => exact fun _ _ h => by cases after.symm.trans h
    | newConnection active before after => exact fun _ _ h => htodo _ _ (after.symm.trans h)
    | user after => exact fun _ _ h => htodo _ _ (after.symm.trans h)
    | handler active d d' before conn lighter after =>
      intro active' d'' h
      obtain ⟨-, heq⟩ := LoopPhase.dispatching.inj (after.symm.trans h)
      obtain rfl := Option.some.inj heq
      rw [conn]
      exact htodo _ _ before
    | @handleEvent l c' active d before conn light after =>
      intro active' d'' h
      obtain ⟨-, heq⟩ := LoopPhase.dispatching.inj (after.symm.trans h)
      obtain rfl := Option.some.inj heq
      rintro rfl
      -- only an open connection is on the list
      have hmem : d.conn ∈ s.active l := by
        simp [TcpServer.active, ServerLoop.active, before, conn]
      have hopen := (hconn.active (hio.symm ▸ hmem)).1
      omega
  · rw [todoOf_congr (hio'.trans hio.symm) (hspares.phase _ (by rw [hio]; simpa using hl))]
    exact htodo

theorem on_stable {io : L} : (tcpServerMachine cfg).Stable (ServerInv cfg) (On io c) :=
  fun _ _ _ _ h he hs => h.mono (step_spec he hs).1

/-- **One round establishes**: `connectEstablished` waits on the loop of the connection. -/
theorem established_leadsTo {io : L} :
    (tcpServerMachine cfg).LeadsTo (ServerInv cfg) (On io c)
      [.doPendingFunctors io, .endFunctors io] (fun s => s.HasRun c .connectEstablished) := by
  refine round_leadsTo (f := .connectEstablished) rfl on_stable fun s hinv hon => ?_
  have hconn := hinv.conns c hon.1
  by_cases hn : s.stage c = 1
  · refine .inr (mem_queued_of_life ?_)
    rw [hconn.queued, hn, hon.2, nextFunctor, if_pos rfl]
    exact List.mem_cons_self
  · refine .inl ((hconn.hasRun_iff (n := 1) rfl).mpr ?_)
    have hpos := hconn.life.pos
    omega

/-- The base loop removes a closed connection. -/
theorem removed_leadsTo {io : L} :
    (tcpServerMachine cfg).LeadsTo (ServerInv cfg) (IsClosed io c)
      [.doPendingFunctors cfg.loop_, .endFunctors cfg.loop_]
      (fun s => s.HasRun c .removeConnectionInLoop) := by
  refine round_leadsTo (f := .removeConnectionInLoop) rfl isClosed_stable fun s hinv h => ?_
  obtain ⟨hon, hclose, htodo⟩ := h
  have hconn := hinv.conns c hon.1
  have hstage : 2 < s.stage c := (hconn.hasRun_iff (n := 2) rfl).mp hclose
  by_cases hn : s.stage c = 3
  · refine .inr (mem_queued_of_life ?_)
    rw [hconn.queued, hn, htodo, nextFunctor, if_pos ⟨rfl, rfl⟩]
    exact List.mem_cons_self
  · exact .inl ((hconn.hasRun_iff (n := 3) rfl).mpr (by omega))

/-- **Two rounds destroy a closed connection**, one of the base loop and one of its own. -/
theorem destroyed_leadsTo {io : L} :
    (tcpServerMachine cfg).LeadsTo (ServerInv cfg) (IsClosed io c)
      [.doPendingFunctors cfg.loop_, .endFunctors cfg.loop_, .doPendingFunctors io,
        .endFunctors io] (fun s => s.HasRun c .connectDestroyed) := by
  have hI := (serverInv_invariant cfg).stable
  have hremoved : (tcpServerMachine cfg).LeadsTo (ServerInv cfg) (IsClosed io c)
      [.doPendingFunctors cfg.loop_, .endFunctors cfg.loop_]
      (fun s => s.HasRun c .removeConnectionInLoop ∧ On io c s) :=
    removed_leadsTo.keeping hI on_stable fun s h => h.1
  refine hremoved.trans hI ?_
  have hstable : (tcpServerMachine cfg).Stable (ServerInv cfg)
      (fun s => s.HasRun c .removeConnectionInLoop ∧ On io c s) := fun s a t hinv h he hs =>
    ⟨hasRun_stable s a t hinv h.1 he hs, on_stable s a t hinv h.2 he hs⟩
  refine round_leadsTo (f := .connectDestroyed) rfl hstable fun s hinv h => ?_
  obtain ⟨hremove, hon⟩ := h
  have hconn := hinv.conns c hon.1
  have hstage : 3 < s.stage c := (hconn.hasRun_iff (n := 3) rfl).mp hremove
  by_cases hn : s.stage c = 4
  · refine .inr (mem_queued_of_life ?_)
    rw [hconn.queued, hn, hon.2, nextFunctor, if_pos rfl]
    exact List.mem_cons_self
  · exact .inl ((hconn.hasRun_iff (n := 4) rfl).mpr (by omega))

/-- The dispatch of a loop is over when it says so. -/
theorem isClosed_leadsTo {io : L} :
    (tcpServerMachine cfg).LeadsTo (ServerInv cfg)
      (fun s => On io c s ∧ s.HasRun c .handleClose) [.endEvent io] (IsClosed io c) := by
  have hI := (serverInv_invariant cfg).stable
  refine .action hI (fun s b t hinv h he hs => .inl ⟨on_stable s b t hinv h.1 he hs,
    hasRun_stable s b t hinv h.2 he hs⟩) ?_ isClosed_stable
  intro s t _ h he hs
  obtain ⟨hspares, hmoves⟩ := step_spec he hs
  refine ⟨h.1.mono hspares, h.2.mono hspares, ?_⟩
  rw [todoOf_eq_none (h.1.mono hspares).2]
  cases hmoves with
  | endEvent active d before after => exact fun _ _ h => by cases after.symm.trans h

end TcpServer

/-! ## §5 The result -/

open TcpServer in
/-- **Every connection gets on, in every interleaving of the loops.** From any state of any run,
    however it goes on: once its loop has gone round, a connection that was made is established;
    and a closed one is destroyed and out of the poller once the dispatch that closed it is over,
    the base loop has gone round and then its own loop. -/
theorem tcpServer_rounds {L : Type} [DecidableEq L] [Fintype L] (cfg : ServerConfig L)
    {acts as : List (ServerAct L)} {s t : TcpServer L} {c : ConnId}
    (h : (tcpServerMachine cfg).Reaches (TcpServer.start cfg) acts s)
    (hrun : (tcpServerMachine cfg).Reaches s as t) (hmade : s.HasRun c .newConnection) :
    ([.doPendingFunctors (s.conns c).loop_, .endFunctors (s.conns c).loop_].Sublist as →
      t.HasRun c .connectEstablished) ∧
    (s.HasRun c .handleClose →
      [.endEvent (s.conns c).loop_, .doPendingFunctors cfg.loop_, .endFunctors cfg.loop_,
        .doPendingFunctors (s.conns c).loop_, .endFunctors (s.conns c).loop_].Sublist as →
      t.HasRun c .connectDestroyed ∧ t.Unregistered c) := by
  have hI := (serverInv_invariant cfg).stable
  have hinv := Machine.invariant_reaches (serverInv_invariant cfg) h
  obtain ⟨l, hmem⟩ := hmade
  have hon : On (s.conns c).loop_ c s := ⟨hinv.calls _ hmem, rfl⟩
  refine ⟨established_leadsTo s as t hinv hon hrun, fun hclose hsub => ?_⟩
  have hdestroyed : t.HasRun c .connectDestroyed :=
    isClosed_leadsTo.trans hI destroyed_leadsTo s as t hinv ⟨hon, hclose⟩ hrun hsub
  have hinv' := hI.reaches hI hinv hinv hrun
  have hc := hI.reaches on_stable hinv hon hrun
  refine ⟨hdestroyed, hinv'.unregistered hc.1 ?_⟩
  exact (hinv'.conns c hc.1).hasRun.2.2.mp hdestroyed

/-- The peer closes a connection of the other loop: up to `handleClose`. -/
def closedRun : List (ServerAct Bool) := peerClosesRun.take 10

/-- The rest of the dispatch, a round of the base loop and one of the other loop. -/
def destroyRun : List (ServerAct Bool) := peerClosesRun.drop 10

theorem destroyRun_rounds :
    ∃ s t, (tcpServerMachine twoLoops).Reaches (.start twoLoops) closedRun s ∧
      (tcpServerMachine twoLoops).Reaches s destroyRun t ∧ s.held 0 = true ∧
      t.HasRun 0 .connectDestroyed ∧ t.Unregistered 0 := by
  have hclosed : ((tcpServerMachine twoLoops).run (.start twoLoops) closedRun).map
      (fun s => (s.calls, s.held 0, (s.conns 0).loop_,
        ((tcpServerMachine twoLoops).run s destroyRun).isSome)) =
      some ([(false, 0, .newConnection), (true, 0, .connectEstablished), (true, 0, .handleEvent),
        (true, 0, .handleClose)], true, true, true) := by decide +kernel
  obtain ⟨s, hs, heq⟩ := Option.map_eq_some_iff.mp hclosed
  simp only [Prod.mk.injEq] at heq
  obtain ⟨hcalls, hheld, hloop, hrest⟩ := heq
  obtain ⟨t, ht⟩ := Option.isSome_iff_exists.mp hrest
  have hreach := Machine.reaches_of_run hs
  have hrun := Machine.reaches_of_run ht
  have hmade : s.HasRun 0 .newConnection := ⟨false, by simp [hcalls]⟩
  have hclose : s.HasRun 0 .handleClose := ⟨true, by simp [hcalls]⟩
  refine ⟨s, t, hreach, hrun, hheld, (tcpServer_rounds twoLoops hreach hrun hmade).2 hclose ?_⟩
  rw [hloop]
  refine .cons _ (.cons_cons _ (.cons_cons _ (.cons _ (.cons_cons _ (.cons_cons _ (.cons _
    (.cons_cons _ .slnil)))))))

end RainWebServer.Net
