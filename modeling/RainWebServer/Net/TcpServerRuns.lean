import RainWebServer.Net.TcpServerLoops

/-!
# Runs of a Server

`ServerInv` holds along all interleavings of the loops' steps.

## Main result

`tcpServer_lifecycle` : `connections_` is what it should be; each connection goes through its
`lifecycle` once and in order, on the right threads, and its events come after it was
established; and its channel is out of the poller before the last `shared_ptr` to it goes.
-/

namespace RainWebServer.Net

open RainWebServer.Lib

namespace TcpServer

variable {L : Type} [DecidableEq L] {cfg : ServerConfig L} {s : TcpServer L} {c : ConnId}

/-! ## §1 The invariant of runs -/

/-- Nothing has happened yet. -/
theorem serverInv_start (cfg : ServerConfig L) : ServerInv cfg (start cfg) where
  conns c hc := absurd hc (Nat.not_lt_zero c)
  name c hc := absurd hc (Nat.not_lt_zero c)
  nextConnId := rfl
  bound := (by decide : 0 < 2 ^ 31)
  distinct c _ hc := absurd hc (Nat.not_lt_zero c)
  owned _ _ _ := ⟨rfl, rfl⟩
  queued _ _ hp := absurd hp List.not_mem_nil
  active_nodup _ := List.nodup_nil
  active _ _ hc := absurd hc List.not_mem_nil
  dispatch _ _ hd := nomatch hd
  map _ c := iff_of_false List.not_mem_nil (fun hm => absurd hm.1 (Nat.not_lt_zero c))
  keys := List.nodup_nil
  calls _ he := absurd he List.not_mem_nil

variable [Fintype L]

/-- **Every step of every loop keeps the invariant**, and none faults. -/
theorem serverInv_invariant (cfg : ServerConfig L) :
    (tcpServerMachine cfg).Invariant (start cfg) (ServerInv cfg) where
  init := serverInv_start cfg
  step s a h henabled := by
    show ∃ t, s.step cfg a = some t ∧ ServerInv cfg t
    replace henabled : s.enabled cfg a = true := henabled
    cases a with
    | poll l events =>
      simp only [enabled] at henabled
      split at henabled
      · rename_i hphase
        rw [Bool.and_eq_true, decide_eq_true_eq] at henabled
        refine ⟨_, rfl, h.poll hphase henabled.1 ?_⟩
        intro e he
        have hentry := List.all_eq_true.mp henabled.2 e he
        exact (Bool.and_eq_true _ _ ▸ hentry).2
      · cases henabled
    | handleEvent l =>
      simp only [enabled] at henabled
      split at henabled
      · rename_i hphase
        exact h.handleEvent hphase
      · cases henabled
    | handler l r w =>
      simp only [enabled] at henabled
      split at henabled
      · rename_i hphase
        exact h.handler hphase r w
      · cases henabled
    | endEvent l =>
      simp only [enabled] at henabled
      split at henabled
      · rename_i activeChannels c guard hphase
        refine ⟨s.setPhase l (.dispatching activeChannels none), ?_, ?_⟩
        · simp only [TcpServer.step, hphase]
        · exact h.setCurrent hphase (fun d hd => by cases hd) (fun _ => rfl)
      · cases henabled
    | newConnection sockfd ioLoop =>
      simp only [enabled] at henabled
      split at henabled
      · rw [Bool.and_eq_true, decide_eq_true_eq] at henabled
        exact h.newConnection henabled.1 henabled.2 ioLoop
      · cases henabled
    | doPendingFunctors l =>
      simp only [enabled] at henabled
      split at henabled
      · rename_i hphase
        -- the functors are swapped out of the queue: they are still before the loop
        refine ⟨_, rfl, h.setLoop rfl ?_ ?_ ?_⟩
        · simp [ServerLoop.queued, hphase]
        · simp [ServerLoop.dispatch, hphase]
        · simp [ServerLoop.active, hphase]
      · cases henabled
    | functor l bytes file w =>
      simp only [enabled] at henabled
      split at henabled
      · rename_i ran p rest hphase
        obtain ⟨c, f⟩ := p
        have hmem : (c, f) ∈ s.queued l := by
          rw [queued_runningFunctors hphase, if_pos rfl]
          exact List.mem_cons_self
        -- the functor's own `shared_ptr` keeps the connection alive
        have hheld := held_of_queued hmem (h.queued l _ hmem).2
        obtain ⟨t, hrun, hinv⟩ := h.runFunctor hphase bytes file w
        refine ⟨t, ?_, hinv⟩
        simp only [TcpServer.step, TcpServer.functor, hphase, hheld, if_true]
        exact hrun
      · cases henabled
    | endFunctors l =>
      simp only [enabled] at henabled
      split at henabled
      · rename_i hphase
        refine ⟨_, rfl, h.setLoop rfl ?_ ?_ ?_⟩
        · simp [ServerLoop.queued, hphase]
        · simp [ServerLoop.dispatch, hphase]
        · simp [ServerLoop.active, hphase]
      · cases henabled
    | user l c call =>
      simp only [enabled, Bool.and_eq_true, decide_eq_true_eq] at henabled
      exact h.user henabled.1.1 call

/-! ## §2 What the invariant says -/

omit [Fintype L] [DecidableEq L] in
theorem hasRun_iff (s : TcpServer L) (c : ConnId) {call : ServerCall}
    (hcall : call ≠ .handleEvent) :
    s.HasRun c call ↔ ∃ l, (l, call) ∈ s.lifeCalls c := by
  simp only [HasRun, lifeCalls, callsOf, List.mem_filter, List.mem_filterMap]
  constructor
  · rintro ⟨l, hmem⟩
    exact ⟨l, ⟨_, hmem, if_pos rfl⟩, by simpa using hcall⟩
  · rintro ⟨l, ⟨⟨l', c', call'⟩, hmem, heq⟩, -⟩
    split at heq
    · rename_i hc
      obtain ⟨rfl, rfl⟩ := Prod.mk.inj (Option.some.inj heq)
      exact ⟨l', hc ▸ hmem⟩
    · cases heq

omit [Fintype L] in
/-- Which calls have run tells the stage. -/
theorem ConnInv.hasRun (h : ConnInv cfg s c) :
    s.HasRun c .newConnection ∧ (s.HasRun c .removeConnectionInLoop ↔ 4 ≤ s.stage c) ∧
      (s.HasRun c .connectDestroyed ↔ s.stage c = 5) := by
  rw [hasRun_iff s c (by decide), hasRun_iff s c (by decide), hasRun_iff s c (by decide),
    h.lifeCalls]
  have hpos := h.life.pos
  have hle := h.life.le
  generalize s.stage c = n at *
  match n with
  | 0 => omega
  | 1 | 2 | 3 | 4 | 5 => simp [lifecycle]
  | n + 6 => omega

omit [Fintype L] in
/-- A destroyed connection is out of the poller. -/
theorem ServerInv.unregistered (h : ServerInv cfg s) (hc : c < s.accepted) (hn : s.stage c = 5) :
    s.Unregistered c := by
  have hlife := (h.conns c hc).life
  rw [hn] at hlife
  refine ⟨hlife.1, ?_⟩
  intro l fd mask hentry
  have hstage := (h.registered hentry).2.1
  omega

/-- A step that destroys a connection is a functor, which holds it until its batch is done. -/
theorem step_connectDestroyed {a : ServerAct L} {t : TcpServer L}
    (hstep : s.step cfg a = some t) :
    s.accepted ≤ t.accepted ∧ ∀ l₀, (l₀, c, .connectDestroyed) ∈ t.calls →
      (l₀, c, .connectDestroyed) ∈ s.calls ∨ t.held c = true := by
  -- a note of another call does not matter
  have hnote : ∀ {u : TcpServer L} {l l₀ c' call}, call ≠ .connectDestroyed →
      (l₀, c, ServerCall.connectDestroyed) ∈ (u.note l c' call).calls →
      (l₀, c, ServerCall.connectDestroyed) ∈ u.calls := by
    intro u l l₀ c' call hcall hmem
    rcases List.mem_append.mp hmem with hmem | hmem
    · exact hmem
    · have heq := List.mem_singleton.mp hmem
      simp only [Prod.mk.injEq] at heq
      exact absurd heq.2.2.symm hcall
  cases a with
  | poll l events =>
    cases hstep
    exact ⟨Nat.le_refl _, fun _ hmem => .inl hmem⟩
  | handleEvent l =>
    simp only [TcpServer.step, TcpServer.handleEvent] at hstep
    split at hstep
    · split at hstep
      · cases hstep
        exact ⟨Nat.le_refl _, fun _ hmem => .inl (hnote (by decide) hmem)⟩
      · cases hstep
    · cases hstep
      exact ⟨Nat.le_refl _, fun _ hmem => .inl hmem⟩
  | handler l r w =>
    simp only [TcpServer.step, TcpServer.handler] at hstep
    split at hstep
    · obtain ⟨⟨io, ops⟩, -, hstep⟩ := Option.bind_eq_some_iff.mp hstep
      cases hstep
      split
      · exact ⟨Nat.le_refl _, fun _ hmem => .inl (hnote (by decide) hmem)⟩
      · unfold removeConnection
        split
        · exact ⟨Nat.le_refl _, fun _ hmem => .inl (hnote (by decide) hmem)⟩
        · exact ⟨Nat.le_refl _, fun _ hmem => .inl hmem⟩
      · exact ⟨Nat.le_refl _, fun _ hmem => .inl hmem⟩
    · cases hstep
      exact ⟨Nat.le_refl _, fun _ hmem => .inl hmem⟩
  | endEvent l =>
    simp only [TcpServer.step] at hstep
    split at hstep
    · cases hstep
      exact ⟨Nat.le_refl _, fun _ hmem => .inl hmem⟩
    · cases hstep
      exact ⟨Nat.le_refl _, fun _ hmem => .inl hmem⟩
  | newConnection sockfd ioLoop =>
    simp only [TcpServer.step, TcpServer.newConnection] at hstep
    split at hstep
    · obtain ⟨io, -, hstep⟩ := Option.bind_eq_some_iff.mp hstep
      cases hstep
      exact ⟨Nat.le_succ _, fun _ hmem => .inl (hnote (u := { s with accepted := _ }) (by decide)
        (hnote (by decide) hmem))⟩
    · cases hstep
      exact ⟨Nat.le_succ _, fun _ hmem => .inl (hnote (u := { s with accepted := _ }) (by decide)
        hmem)⟩
  | doPendingFunctors l =>
    cases hstep
    exact ⟨Nat.le_refl _, fun _ hmem => .inl hmem⟩
  | functor l bytes file w =>
    simp only [TcpServer.step, TcpServer.functor] at hstep
    split at hstep
    · rename_i ran c' f rest hphase
      split at hstep
      · cases f with
        | connectEstablished =>
          obtain ⟨io, -, hstep⟩ := Option.bind_eq_some_iff.mp hstep
          cases hstep
          exact ⟨Nat.le_refl _, fun _ hmem => .inl (hnote (by decide) hmem)⟩
        | removeConnectionInLoop =>
          cases hstep
          exact ⟨Nat.le_refl _, fun _ hmem => .inl (hnote (by decide) hmem)⟩
        | connectDestroyed =>
          obtain ⟨io, -, hstep⟩ := Option.bind_eq_some_iff.mp hstep
          cases hstep
          refine ⟨Nat.le_refl _, ?_⟩
          intro l₀ hmem
          rcases List.mem_append.mp hmem with hmem | hmem
          · exact .inl hmem
          · obtain ⟨-, rfl⟩ : l₀ = l ∧ c = c' := by simpa using hmem
            exact .inr (held_of_ran (by rw [note, phase_putView, loops_setPhase, if_pos rfl]))
        | sendInLoop data len =>
          obtain ⟨io, -, rfl⟩ := Option.map_eq_some_iff.mp hstep
          exact ⟨Nat.le_refl _, fun _ hmem => .inl hmem⟩
        | shutdownInLoop | sendFileInLoop _ _ _ | writeCompleteCallback | highWaterMarkCallback _ =>
          cases hstep
          exact ⟨Nat.le_refl _, fun _ hmem => .inl hmem⟩
      · cases hstep
    · cases hstep
      exact ⟨Nat.le_refl _, fun _ hmem => .inl hmem⟩
  | endFunctors l =>
    cases hstep
    exact ⟨Nat.le_refl _, fun _ hmem => .inl hmem⟩
  | user l c' call =>
    obtain ⟨io, -, rfl⟩ := Option.map_eq_some_iff.mp hstep
    exact ⟨Nat.le_refl _, fun _ hmem => .inl hmem⟩

end TcpServer

/-! ## §3 The result -/

open TcpServer in
/-- **The life of every connection, in every interleaving of the loops.** The map holds the
    connections that were made and not removed; each connection goes through a beginning of its
    `lifecycle`, on the threads named there, and its events are handled on its loop after it
    was established; in every state in which nobody holds it, and in the last state in which
    somebody does, its channel is out of the poller. No step faults. -/
theorem tcpServer_lifecycle {L : Type} [DecidableEq L] [Fintype L] (cfg : ServerConfig L)
    {acts : List (ServerAct L)} {s : TcpServer L}
    (h : (tcpServerMachine cfg).Reaches (TcpServer.start cfg) acts s) :
    (tcpServerMachine cfg).Safe s ∧
    (s.connections_.map Prod.fst).Nodup ∧
    (∀ c, (∃ name, (name, c) ∈ s.connections_) ↔
      s.HasRun c .newConnection ∧ ¬s.HasRun c .removeConnectionInLoop) ∧
    ∀ c, s.HasRun c .newConnection →
      (∃ n, s.lifeCalls c = (lifecycle cfg.loop_ (s.conns c).loop_).take n) ∧
      (∀ l, AtEach (l, ServerCall.handleEvent) (fun before _ => l = (s.conns c).loop_ ∧
        ((s.conns c).loop_, .connectEstablished) ∈ before) (s.callsOf c)) ∧
      (s.held c = false → s.Unregistered c) ∧
      ∀ a t, (tcpServerMachine cfg).enabled s a = true →
        (tcpServerMachine cfg).step s a = some t → s.held c = true → t.held c = false →
        s.Unregistered c := by
  have hinv := Machine.invariant_reaches (serverInv_invariant cfg) h
  have hsafe := Machine.invariant_safe (serverInv_invariant cfg) h
  have hmade : ∀ {c}, s.HasRun c .newConnection → c < s.accepted := by
    rintro c ⟨l, hmem⟩
    exact hinv.calls _ hmem
  refine ⟨hsafe, hinv.keys, ?_, ?_⟩
  · intro c
    constructor
    · rintro ⟨name, hmem⟩
      obtain ⟨hc, hstage, -⟩ := (hinv.map name c).mp hmem
      obtain ⟨hnew, hremove, -⟩ := (hinv.conns c hc).hasRun
      exact ⟨hnew, fun hrun => absurd (hremove.mp hrun) (by omega)⟩
    · rintro ⟨hnew, hremove⟩
      have hc := hmade hnew
      have hstage := mt (hinv.conns c hc).hasRun.2.1.mpr hremove
      exact ⟨_, (hinv.map_iff hc _).mpr ⟨by omega, rfl⟩⟩
  · intro c hnew
    have hc := hmade hnew
    have hconn := hinv.conns c hc
    refine ⟨⟨_, hconn.lifeCalls⟩, hconn.events, ?_, ?_⟩
    · intro hfree
      apply hinv.unregistered hc
      by_contra hn
      rw [hinv.held hc hn] at hfree
      cases hfree
    · intro a t henabled hstep hheld hfree
      -- the connection has its last stage behind it after the step, and so before it
      obtain ⟨t', hstep', hinv'⟩ := (serverInv_invariant cfg).step s a hinv henabled
      obtain rfl : t' = t := Option.some.inj (hstep'.symm.trans hstep)
      obtain ⟨hle, hdestroyed⟩ := step_connectDestroyed (c := c) hstep
      have hc' : c < t'.accepted := Nat.lt_of_lt_of_le hc hle
      have hlast : t'.stage c = 5 := by
        by_contra hn
        rw [hinv'.held hc' hn] at hfree
        cases hfree
      obtain ⟨l, hmem⟩ := (hinv'.conns c hc').hasRun.2.2.mpr hlast
      rcases hdestroyed l hmem with hmem | hheld'
      · exact hinv.unregistered hc (hconn.hasRun.2.2.mp ⟨l, hmem⟩)
      · rw [hheld'] at hfree
        cases hfree

/-- A server on loop `false` with one more loop, `true`. -/
def twoLoops : ServerConfig Bool := ⟨false, ⟨(127, 0, 0, 1), 8080⟩, "rain", true⟩

/-- A connection of the other loop is accepted, established, closed by its peer, removed and
    destroyed. -/
def peerClosesRun : List (ServerAct Bool) :=
  [.poll false [], .newConnection 7 true,
    .poll true [], .doPendingFunctors true, .functor true [] [] (.accepted 0), .endFunctors true,
    .poll true [(7, EPOLLIN)], .handleEvent true, .handler true (.bytes []) (.accepted 0),
    .handler true .error (.accepted 0), .handler true .error (.accepted 0), .endEvent true,
    .doPendingFunctors false, .functor false [] [] (.accepted 0), .endFunctors false,
    .doPendingFunctors true, .functor true [] [] (.accepted 0), .endFunctors true]

theorem peerClosesRun_lifecycle :
    ∃ s, (tcpServerMachine twoLoops).Reaches (.start twoLoops) peerClosesRun s ∧
      s.lifeCalls 0 = lifecycle false true ∧ s.held 0 = false ∧ s.Unregistered 0 := by
  have hrun : ((tcpServerMachine twoLoops).run (.start twoLoops) peerClosesRun).map
      (fun s => (s.calls.take 1, s.lifeCalls 0, s.held 0)) =
      some ([(false, 0, .newConnection)], lifecycle false true, false) := by decide +kernel
  obtain ⟨s, hs, heq⟩ := Option.map_eq_some_iff.mp hrun
  simp only [Prod.mk.injEq] at heq
  obtain ⟨hfirst, hlife, hfree⟩ := heq
  have hreach := Machine.reaches_of_run hs
  obtain ⟨-, -, -, hconns⟩ := tcpServer_lifecycle twoLoops hreach
  have hmade : s.HasRun 0 .newConnection :=
    ⟨false, List.mem_of_mem_take (hfirst ▸ List.mem_cons_self : _ ∈ s.calls.take 1)⟩
  exact ⟨s, hreach, hlife, hfree, (hconns 0 hmade).2.2.1 hfree⟩

end RainWebServer.Net
