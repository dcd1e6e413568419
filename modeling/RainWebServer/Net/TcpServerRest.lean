import RainWebServer.Lib.Drain
import RainWebServer.Net.TcpServerRounds

/-!
# A Server at Rest

A loop can always go round: the callbacks of a dispatch and the functors of a batch come to an
end, whatever they queue for the next round. So every state has a way to one in which all closed
connections are destroyed; and when all loops wait in their poll with nothing in their queues,
what is left is exactly the open connections.

## Main results

- `tcpServer_goes_round` : every loop can go round, from every state of every run, and a closed
  connection can be destroyed by its two loops alone
- `tcpServer_at_rest` : at rest nothing is left of the connections that were closed
-/

namespace RainWebServer.Net

open RainWebServer.Lib

/-! ## §1 Dispatches and batches end -/

/-- What is left of the loop over `activeChannels_`. -/
def LoopPhase.dispatchRank : LoopPhase → Nat
  | .dispatching activeChannels none => 9 * activeChannels.length
  | .dispatching activeChannels (some d) => 9 * activeChannels.length + todoWeight d.todo + 1
  | _ => 0

/-- What is left of `doPendingFunctors`. -/
def LoopPhase.batchRank : LoopPhase → Nat
  | .runningFunctors _ rest => rest.length + 1
  | _ => 0

def LoopPhase.isPolling : LoopPhase → Bool
  | .polling => true
  | _ => false

namespace TcpServer

variable {L : Type} [DecidableEq L] {cfg : ServerConfig L} {s t : TcpServer L} {c : ConnId}

/-- The steps of the loop over `activeChannels_`. -/
def dispatchActor (l : L) : ServerAct L → Option Unit
  | .handleEvent l' | .handler l' _ _ | .endEvent l' => if l' = l then some () else none
  | _ => none

/-- The steps of `doPendingFunctors`. -/
def batchActor (l : L) : ServerAct L → Option Unit
  | .functor l' _ _ _ | .endFunctors l' => if l' = l then some () else none
  | _ => none

theorem loop_of_dispatchActor (cfg : ServerConfig L) {l : L} {a : ServerAct L} {x : Unit}
    (h : dispatchActor l a = some x) : a.loop cfg = l := by
  cases a with
  | handleEvent l' | handler l' r w | endEvent l' =>
    simp only [dispatchActor] at h
    split at h
    · assumption
    · cases h
  | _ => cases h

theorem loop_of_batchActor (cfg : ServerConfig L) {l : L} {a : ServerAct L} {x : Unit}
    (h : batchActor l a = some x) : a.loop cfg = l := by
  cases a with
  | functor l' bytes file w | endFunctors l' =>
    simp only [batchActor] at h
    split at h
    · assumption
    · cases h
  | _ => cases h

variable [Fintype L]

/-- Any enabled step of an actor will do: none faults. -/
theorem goes_by {actor : ServerAct L → Option Unit} (hinv : ServerInv cfg s) (a : ServerAct L)
    (hactor : actor a = some ()) (he : s.enabled cfg a = true) :
    ∃ a u t, actor a = some u ∧ (tcpServerMachine cfg).enabled s a = true ∧
      (tcpServerMachine cfg).step s a = some t := by
  obtain ⟨t, ht, -⟩ := (serverInv_invariant cfg).step s a hinv he
  exact ⟨a, (), t, hactor, he, ht⟩

/-- **A dispatch ends.** -/
theorem dispatch_drains (cfg : ServerConfig L) (l : L) :
    (tcpServerMachine cfg).Drains (ServerInv cfg) (dispatchActor l)
      (fun s _ => (s.loops l).phase.dispatchRank) where
  keeps := fun s a t hinv he hs => (serverInv_invariant cfg).stable s a t hinv hinv he hs
  lowers := by
    intro s a t x hinv hactor he hs
    obtain rfl := loop_of_dispatchActor cfg hactor
    refine ⟨?_, fun u hu => absurd (Subsingleton.elim u x) hu⟩
    cases (step_spec he hs).2 with
    | handleEvent c active d before conn light after =>
      simp only [ServerAct.loop, before, after, LoopPhase.dispatchRank, List.length_cons]
      omega
    | handler active d d' before conn lighter after =>
      simp only [ServerAct.loop, before, after, LoopPhase.dispatchRank]
      omega
    | endEvent active d before after =>
      simp only [ServerAct.loop, before, after, LoopPhase.dispatchRank]
      omega
    | _ => cases hactor
  goes := by
    intro s x hinv hrank
    cases hphase : (s.loops l).phase with
    | dispatching active current =>
      cases current with
      | none =>
        cases active with
        | nil => simp [hphase, LoopPhase.dispatchRank] at hrank
        | cons c active =>
          exact goes_by hinv (.handleEvent l) (if_pos rfl) (by simp [enabled, hphase])
      | some d =>
        obtain ⟨c, guard, todo⟩ := d
        cases todo with
        | nil => exact goes_by hinv (.endEvent l) (if_pos rfl) (by simp [enabled, hphase])
        | cons op todo =>
          exact goes_by hinv (.handler l .error (.accepted 0)) (if_pos rfl)
            (by simp [enabled, hphase])
    | polling => simp [hphase, LoopPhase.dispatchRank] at hrank
    | runningFunctors ran rest => simp [hphase, LoopPhase.dispatchRank] at hrank

/-- **A batch ends.** -/
theorem batch_drains (cfg : ServerConfig L) (l : L) :
    (tcpServerMachine cfg).Drains (ServerInv cfg) (batchActor l)
      (fun s _ => (s.loops l).phase.batchRank) where
  keeps := fun s a t hinv he hs => (serverInv_invariant cfg).stable s a t hinv hinv he hs
  lowers := by
    intro s a t x hinv hactor he hs
    obtain rfl := loop_of_batchActor cfg hactor
    refine ⟨?_, fun u hu => absurd (Subsingleton.elim u x) hu⟩
    cases (step_spec he hs).2 with
    | functor ran rest p before after calls =>
      simp [ServerAct.loop, before, after, LoopPhase.batchRank]
    | endFunctors ran before after =>
      simp [ServerAct.loop, before, after, LoopPhase.batchRank]
    | _ => cases hactor
  goes := by
    intro s x hinv hrank
    cases hphase : (s.loops l).phase with
    | runningFunctors ran rest =>
      cases rest with
      | nil => exact goes_by hinv (.endFunctors l) (if_pos rfl) (by simp [enabled, hphase])
      | cons p rest =>
        exact goes_by hinv (.functor l [] [] (.accepted 0)) (if_pos rfl) (by simp [enabled, hphase])
    | polling => simp [hphase, LoopPhase.batchRank] at hrank
    | dispatching active current => simp [hphase, LoopPhase.batchRank] at hrank

/-! ## §2 A loop goes round -/

/-- `endFunctors` ends a batch. -/
theorem batch_ends {l : L} {ran rest : List (ConnId × ConnFunctor)} (hinv : ServerInv cfg s)
    (hphase : (s.loops l).phase = .runningFunctors ran rest) :
    ∃ as t, (tcpServerMachine cfg).Reaches s (as ++ [.endFunctors l]) t ∧
      (∀ a ∈ as, a.loop cfg = l) ∧ (t.loops l).phase = .polling := by
  have hthreads : ∀ x : Unit, 0 < (s.loops l).phase.batchRank → x ∈ [()] :=
    fun _ _ => List.mem_singleton.mpr rfl
  obtain ⟨as, t, hrun, hall, hzero⟩ := (batch_drains cfg l).finishes hinv hthreads
  specialize hzero ()
  cases hrun with
  | refl => simp [hphase, LoopPhase.batchRank] at hzero
  | @snoc as u v a hrun he hs =>
    have hactor := hall a (List.mem_append_right _ List.mem_cons_self)
    obtain ⟨x, hx⟩ := Option.isSome_iff_exists.mp hactor
    obtain rfl := loop_of_batchActor cfg hx
    refine ⟨as, t, ?_⟩
    have hloops : ∀ b ∈ as, b.loop cfg = a.loop cfg := by
      intro b hb
      obtain ⟨y, hy⟩ := Option.isSome_iff_exists.mp (hall b (List.mem_append_left _ hb))
      exact loop_of_batchActor cfg hy
    have hlast := Machine.Reaches.snoc hrun he hs
    cases (step_spec he hs).2 with
    | functor ran' rest' p before after calls =>
      simp [ServerAct.loop, after, LoopPhase.batchRank] at hzero
    | endFunctors ran' before after => exact ⟨hlast, hloops, after⟩
    | _ => cases hx

/-- A loop in its dispatch comes to `doPendingFunctors`. -/
theorem dispatch_ends {l : L} {active : List ConnId} {current : Option Dispatch}
    (hinv : ServerInv cfg s) (hphase : (s.loops l).phase = .dispatching active current) :
    ∃ as t, (tcpServerMachine cfg).Reaches s as t ∧ (∀ a ∈ as, a.loop cfg = l) ∧
      (t.loops l).phase = .dispatching [] none := by
  have hthreads : ∀ x : Unit, 0 < (s.loops l).phase.dispatchRank → x ∈ [()] :=
    fun _ _ => List.mem_singleton.mpr rfl
  obtain ⟨as, t, hrun, hall, hzero⟩ := (dispatch_drains cfg l).finishes hinv hthreads
  specialize hzero ()
  have hloops : ∀ a ∈ as, a.loop cfg = l := by
    intro a ha
    obtain ⟨x, hx⟩ := Option.isSome_iff_exists.mp (hall a ha)
    exact loop_of_dispatchActor cfg hx
  refine ⟨as, t, hrun, hloops, ?_⟩
  -- the loop is still in its dispatch
  have hstill : ∃ active current, (t.loops l).phase = .dispatching active current := by
    cases hrun with
    | refl => exact ⟨_, _, hphase⟩
    | @snoc as u v a hrun he hs =>
      have hmem : a ∈ as ++ [a] := List.mem_append_right _ List.mem_cons_self
      have hactor := hall a hmem
      obtain rfl := hloops a hmem
      cases (step_spec he hs).2 with
      | handleEvent c active d before conn light after => exact ⟨_, _, after⟩
      | handler active d d' before conn lighter after => exact ⟨_, _, after⟩
      | endEvent active d before after => exact ⟨_, _, after⟩
      | _ => cases hactor
  obtain ⟨active, current, hphase'⟩ := hstill
  rw [hphase'] at hzero ⊢
  cases current with
  | none =>
    cases active with
    | nil => rfl
    | cons c active => simp [LoopPhase.dispatchRank] at hzero
  | some d => simp [LoopPhase.dispatchRank] at hzero

/-- The loop is not in a batch, after some steps of its own. -/
theorem comes_to_dispatch (l : L) (hinv : ServerInv cfg s) : ∃ as t active current,
    (tcpServerMachine cfg).Reaches s as t ∧ (∀ a ∈ as, a.loop cfg = l) ∧
      (t.loops l).phase = .dispatching active current := by
  -- a poll may report nothing
  have hpoll : ∀ u : TcpServer L, (u.loops l).phase = .polling → ∃ t active current,
      (tcpServerMachine cfg).enabled u (.poll l []) = true ∧
      (tcpServerMachine cfg).step u (.poll l []) = some t ∧
      (t.loops l).phase = .dispatching active current := by
    intro u hu
    have he : u.enabled cfg (.poll l []) = true := by simp [enabled, hu]
    exact ⟨_, _, _, he, rfl, phase_setPhase _ l _⟩
  cases hphase : (s.loops l).phase with
  | dispatching active current =>
    exact ⟨[], s, active, current, .refl, (fun a ha => by cases ha), hphase⟩
  | polling =>
    obtain ⟨t, active, current, he, hs, hphase'⟩ := hpoll s hphase
    exact ⟨[.poll l []], t, active, current, .snoc .refl he hs,
      fun a ha => List.mem_singleton.mp ha ▸ rfl, hphase'⟩
  | runningFunctors ran rest =>
    obtain ⟨as, u, hrun, hloops, hphase'⟩ := batch_ends hinv hphase
    obtain ⟨t, active, current, he, hs, hphase''⟩ := hpoll u hphase'
    refine ⟨as ++ [.endFunctors l] ++ [.poll l []], t, active, current, .snoc hrun he hs, ?_,
      hphase''⟩
    intro a ha
    rcases List.mem_append.mp ha with ha | ha
    · rcases List.mem_append.mp ha with ha | ha
      · exact hloops a ha
      · exact List.mem_singleton.mp ha ▸ rfl
    · exact List.mem_singleton.mp ha ▸ rfl

/-- **A loop goes round** by steps of its own, from wherever it is. -/
theorem goes_round (l : L) (hinv : ServerInv cfg s) :
    ∃ as t, (tcpServerMachine cfg).Reaches s as t ∧ (∀ a ∈ as, a.loop cfg = l) ∧
      [ServerAct.doPendingFunctors l, .endFunctors l].Sublist as ∧
      (t.loops l).phase = .polling := by
  have hI := (serverInv_invariant cfg).stable
  obtain ⟨as₁, s₁, active, current, hrun₁, hl₁, hphase₁⟩ := comes_to_dispatch l hinv
  have hinv₁ := hI.reaches hI hinv hinv hrun₁
  obtain ⟨as₂, s₂, hrun₂, hl₂, hphase₂⟩ := dispatch_ends hinv₁ hphase₁
  have hinv₂ := hI.reaches hI hinv₁ hinv₁ hrun₂
  have he : (tcpServerMachine cfg).enabled s₂ (.doPendingFunctors l) = true := by
    simp [tcpServerMachine, enabled, hphase₂]
  obtain ⟨s₃, hs, hinv₃⟩ := (serverInv_invariant cfg).step s₂ _ hinv₂ he
  have hphase₃ : ∃ rest, (s₃.loops l).phase = .runningFunctors [] rest := by
    cases (step_spec he hs).2 with
    | doPendingFunctors before after => exact ⟨_, after⟩
  obtain ⟨rest, hphase₃⟩ := hphase₃
  obtain ⟨as₄, t, hrun₄, hl₄, hphase⟩ := batch_ends hinv₃ hphase₃
  refine ⟨as₁ ++ (as₂ ++ .doPendingFunctors l :: (as₄ ++ [.endFunctors l])), t,
    hrun₁.trans (hrun₂.trans (.cons he hs hrun₄)), ?_, ?_, hphase⟩
  · intro a ha
    simp only [List.mem_append, List.mem_cons, List.not_mem_nil, or_false] at ha
    rcases ha with ha | ha | rfl | ha | rfl
    · exact hl₁ a ha
    · exact hl₂ a ha
    · rfl
    · exact hl₄ a ha
    · rfl
  · refine (List.Sublist.cons_cons _ ?_).trans (List.sublist_append_right _ _ |>.trans
      (List.sublist_append_right _ _))
    exact List.sublist_append_right _ _

/-! ## §3 At rest -/

/-- All loops wait in their poll, and nothing is queued. -/
def AtRest (s : TcpServer L) : Prop :=
  ∀ l, (s.loops l).phase = .polling ∧ (s.loops l).pendingFunctors_ = []

omit [DecidableEq L] [Fintype L] in
theorem AtRest.queued (h : AtRest s) (l : L) : s.queued l = [] := by
  obtain ⟨hphase, hpending⟩ := h l
  simp [TcpServer.queued, ServerLoop.queued, hphase, hpending]

omit [Fintype L] in
/-- A connection at rest is open or destroyed: the other stages have a functor in some queue. -/
theorem ServerInv.stage_at_rest (h : ServerInv cfg s) (hrest : AtRest s) (hc : c < s.accepted) :
    s.stage c = 2 ∨ s.stage c = 5 := by
  have hconn := h.conns c hc
  have hlife := hconn.life
  have hnone : ∀ l, s.lifeQueued l c = [] := by
    intro l
    simp [lifeQueued, hrest.queued l]
  have htodo : s.todoOf c = none :=
    todoOf_none (by simp [TcpServer.dispatch, ServerLoop.dispatch, (hrest (s.conns c).loop_).1])
  have hio := (hconn.queued (s.conns c).loop_).symm.trans (hnone _)
  have hbase := (hconn.queued cfg.loop_).symm.trans (hnone _)
  rw [htodo] at hio hbase
  have hpos := hlife.pos
  have hle := hlife.le
  obtain hn | hn | hn | hn | hn : s.stage c = 1 ∨ s.stage c = 2 ∨ s.stage c = 3 ∨ s.stage c = 4 ∨
      s.stage c = 5 := by omega
  · simp [hn, nextFunctor] at hio
  · exact .inl hn
  · simp [hn, nextFunctor, closing] at hbase
  · simp [hn, nextFunctor] at hio
  · exact .inr hn

omit [Fintype L] in
theorem ServerInv.map_at_rest (h : ServerInv cfg s) (hrest : AtRest s) :
    (∃ name, (name, c) ∈ s.connections_) ↔ c < s.accepted ∧ s.stage c = 2 := by
  constructor
  · rintro ⟨name, hmem⟩
    obtain ⟨hc, hstage, -⟩ := (h.map name c).mp hmem
    refine ⟨hc, (h.stage_at_rest hrest hc).resolve_right ?_⟩
    omega
  · rintro ⟨hc, hstage⟩
    exact ⟨_, (h.map _ c).mpr ⟨hc, by omega, rfl⟩⟩

/-- The map's `shared_ptr`s are the only ones. -/
theorem ServerInv.held_at_rest (h : ServerInv cfg s) (hrest : AtRest s) :
    s.held c = true ↔ c < s.accepted ∧ s.stage c = 2 := by
  rw [← h.map_at_rest hrest, TcpServer.held, Bool.or_eq_true, decide_eq_true_eq]
  have hnone : ¬∃ l, (s.loops l).holds c = true := by
    rintro ⟨l, hholds⟩
    obtain ⟨hphase, hpending⟩ := hrest l
    simp [ServerLoop.holds, hphase, hpending, sharedBy] at hholds
  simp [hnone]

omit [Fintype L] in
/-- The pollers know the open connections. -/
theorem ServerInv.interest_at_rest (h : ServerInv cfg s) {l : L} {fd : Int} :
    (∃ mask, (s.loops l).poller.interest fd = some (mask, c)) ↔
      (c < s.accepted ∧ s.stage c = 2) ∧ (s.conns c).loop_ = l ∧
        (s.conns c).conn.channel_.fd_ = fd := by
  constructor
  · rintro ⟨mask, hentry⟩
    obtain ⟨hc, hstage, hl, hfd⟩ := h.registered hentry
    exact ⟨⟨hc, hstage⟩, hl, hfd⟩
  · rintro ⟨⟨hc, hstage⟩, rfl, rfl⟩
    have hlife := (h.conns c hc).life
    rw [hstage] at hlife
    have hentry : (s.view c).poller.interest (s.view c).conn.channel_.fd_ =
        EPollPoller.entryOf c (s.view c).conn.channel_ := hlife.1.agrees.interest_eq
    rw [EPollPoller.entryOf, if_pos hlife.1.added] at hentry
    exact ⟨_, hentry⟩

end TcpServer

/-! ## §4 The results -/

open TcpServer in
/-- **No loop gets stuck.** From every state of every run, each loop can go round by steps of its
    own; and a closed connection can be destroyed by its own loop and the base loop alone. -/
theorem tcpServer_goes_round {L : Type} [DecidableEq L] [Fintype L] (cfg : ServerConfig L)
    {acts : List (ServerAct L)} {s : TcpServer L}
    (h : (tcpServerMachine cfg).Reaches (TcpServer.start cfg) acts s) :
    (∀ l, ∃ as t, (tcpServerMachine cfg).Reaches s as t ∧ (∀ a ∈ as, a.loop cfg = l) ∧
      [ServerAct.doPendingFunctors l, .endFunctors l].Sublist as) ∧
    ∀ c, s.HasRun c .handleClose → ∃ as t, (tcpServerMachine cfg).Reaches s as t ∧
      (∀ a ∈ as, a.loop cfg = (s.conns c).loop_ ∨ a.loop cfg = cfg.loop_) ∧
      t.HasRun c .connectDestroyed ∧ t.Unregistered c := by
  have hI := (serverInv_invariant cfg).stable
  have hinv := Machine.invariant_reaches (serverInv_invariant cfg) h
  refine ⟨fun l => ?_, fun c hclose => ?_⟩
  · obtain ⟨as, t, hrun, hl, hround, -⟩ := goes_round l hinv
    exact ⟨as, t, hrun, hl, hround⟩
  · obtain ⟨l, hmem⟩ := id hclose
    have hon : On (s.conns c).loop_ c s := ⟨hinv.calls _ hmem, rfl⟩
    -- the dispatch ends, the base loop goes round, then the connection's loop
    obtain ⟨as₁, s₁, hrun₁, hl₁, -, hphase₁⟩ := goes_round (s.conns c).loop_ hinv
    have hinv₁ := hI.reaches hI hinv hinv hrun₁
    have hclosed : IsClosed (s.conns c).loop_ c s₁ := by
      have hon₁ := hI.reaches on_stable hinv hon hrun₁
      refine ⟨hon₁, hI.reaches hasRun_stable hinv hclose hrun₁, ?_⟩
      rw [todoOf_eq_none hon₁.2, hphase₁]
      intro active d heq
      cases heq
    obtain ⟨as₂, s₂, hrun₂, hl₂, hround₂, -⟩ := goes_round cfg.loop_ hinv₁
    have hinv₂ := hI.reaches hI hinv₁ hinv₁ hrun₂
    obtain ⟨as₃, t, hrun₃, hl₃, hround₃, -⟩ := goes_round (s.conns c).loop_ hinv₂
    have hdestroyed : t.HasRun c .connectDestroyed := destroyed_leadsTo s₁ _ t hinv₁ hclosed
      (hrun₂.trans hrun₃) (hround₂.append hround₃)
    have hinv' := hI.reaches hI hinv₂ hinv₂ hrun₃
    obtain ⟨l', hmem'⟩ := id hdestroyed
    have hc : c < t.accepted := hinv'.calls _ hmem'
    refine ⟨as₁ ++ (as₂ ++ as₃), t, hrun₁.trans (hrun₂.trans hrun₃), ?_, hdestroyed,
      hinv'.unregistered hc ((hinv'.conns c hc).hasRun.2.2.mp hdestroyed)⟩
    intro a ha
    simp only [List.mem_append] at ha
    rcases ha with ha | ha | ha
    · exact .inl (hl₁ a ha)
    · exact .inr (hl₂ a ha)
    · exact .inl (hl₃ a ha)

theorem closedRun_goes_round :
    ∃ s, (tcpServerMachine twoLoops).Reaches (.start twoLoops) closedRun s ∧
      ∃ as t, (tcpServerMachine twoLoops).Reaches s as t ∧ t.HasRun 0 .connectDestroyed := by
  have hrun : ((tcpServerMachine twoLoops).run (.start twoLoops) closedRun).map
      (fun s => s.calls.drop 3) = some [(true, 0, .handleClose)] := by decide +kernel
  obtain ⟨s, hs, hcalls⟩ := Option.map_eq_some_iff.mp hrun
  have hreach := Machine.reaches_of_run hs
  have hclose : s.HasRun 0 .handleClose :=
    ⟨true, List.mem_of_mem_drop (hcalls ▸ List.mem_cons_self : _ ∈ s.calls.drop 3)⟩
  obtain ⟨as, t, hrun', -, hdestroyed, -⟩ := (tcpServer_goes_round twoLoops hreach).2 0 hclose
  exact ⟨s, hreach, as, t, hrun', hdestroyed⟩

open TcpServer in
/-- **Nothing is left of a closed connection.** In every state that a run reaches with all loops
    in their poll and nothing queued: `connections_` has the only `shared_ptr`s; the pollers know
    the fds of these connections and no others, each on its own loop; the connections are open,
    with fds of their own; and every other fd is free. -/
theorem tcpServer_at_rest {L : Type} [DecidableEq L] [Fintype L] (cfg : ServerConfig L)
    {acts : List (ServerAct L)} {s : TcpServer L}
    (h : (tcpServerMachine cfg).Reaches (TcpServer.start cfg) acts s) (hrest : AtRest s) :
    (∀ c, s.held c = true ↔ ∃ name, (name, c) ∈ s.connections_) ∧
    (∀ l fd c, (∃ mask, (s.loops l).poller.interest fd = some (mask, c)) ↔
      (∃ name, (name, c) ∈ s.connections_) ∧ (s.conns c).loop_ = l ∧
        (s.conns c).conn.channel_.fd_ = fd) ∧
    (∀ name c, (name, c) ∈ s.connections_ → (s.conns c).conn.state_ = .kConnected ∨
      (s.conns c).conn.state_ = .kDisconnecting) ∧
    (∀ name name' c c', (name, c) ∈ s.connections_ → (name', c') ∈ s.connections_ →
      (s.conns c).conn.channel_.fd_ = (s.conns c').conn.channel_.fd_ → c = c') ∧
    ∀ fd, s.unusedFd fd = true ↔
      ∀ name c, (name, c) ∈ s.connections_ → (s.conns c).conn.channel_.fd_ ≠ fd := by
  have hinv := Machine.invariant_reaches (serverInv_invariant cfg) h
  have hmap : ∀ {name c}, (name, c) ∈ s.connections_ → c < s.accepted ∧ s.stage c = 2 :=
    fun hmem => (hinv.map_at_rest hrest).mp ⟨_, hmem⟩
  refine ⟨?_, ?_, ?_, ?_, ?_⟩
  · intro c
    rw [hinv.held_at_rest hrest, hinv.map_at_rest hrest]
  · intro l fd c
    rw [hinv.interest_at_rest, hinv.map_at_rest hrest]
  · intro name c hmem
    obtain ⟨hc, hstage⟩ := hmap hmem
    have hlife := (hinv.conns c hc).life
    rw [hstage] at hlife
    exact hlife.2
  · intro name name' c c' hmem hmem' hfd
    obtain ⟨hc, hstage⟩ := hmap hmem
    obtain ⟨hc', hstage'⟩ := hmap hmem'
    exact hinv.distinct c c' hc hc' (by omega) (by omega) hfd
  · intro fd
    have hheld : ∀ c, s.held c = true ↔ ∃ name, (name, c) ∈ s.connections_ := by
      intro c
      rw [hinv.held_at_rest hrest, hinv.map_at_rest hrest]
    simp only [unusedFd, List.all_eq_true, List.mem_range, Bool.not_eq_true', Bool.and_eq_false_iff,
      decide_eq_false_iff_not]
    constructor
    · intro hall name c hmem
      rcases hall c (hmap hmem).1 with hfree | hne
      · rw [(hheld c).mpr ⟨name, hmem⟩] at hfree
        cases hfree
      · exact hne
    · intro hall c _
      by_cases hmem : ∃ name, (name, c) ∈ s.connections_
      · obtain ⟨name, hmem⟩ := hmem
        exact .inr (hall name c hmem)
      · exact .inl (Bool.eq_false_iff.mpr fun hc => hmem ((hheld c).mp hc))

/-- One connection is open when the server comes to rest, another was closed by its peer. -/
theorem peerClosesRun_at_rest :
    ∃ s, (tcpServerMachine twoLoops).Reaches (.start twoLoops)
        (peerClosesRun ++ [.poll false [], .newConnection 7 false, .doPendingFunctors false,
          .endFunctors false]) s ∧
      s.connections_.map Prod.snd = [1] ∧ s.held 0 = false ∧ s.unusedFd 7 = false := by
  have hrun : ((tcpServerMachine twoLoops).run (.start twoLoops)
      (peerClosesRun ++ [.poll false [], .newConnection 7 false, .doPendingFunctors false,
        .endFunctors false])).map (fun s => (s.connections_, [false, true].all fun l =>
          (s.loops l).pendingFunctors_.isEmpty && (s.loops l).phase.isPolling,
        (s.conns 1).conn.channel_.fd_)) =
      some ([("rain-127.0.0.1:8080#2", 1)], true, 7) := by decide +kernel
  obtain ⟨s, hs, heq⟩ := Option.map_eq_some_iff.mp hrun
  simp only [Prod.mk.injEq] at heq
  obtain ⟨hmap, hloops, hfd⟩ := heq
  have hreach := Machine.reaches_of_run hs
  have hrest : TcpServer.AtRest s := by
    intro l
    have hl := List.all_eq_true.mp hloops l (by cases l <;> decide)
    rw [Bool.and_eq_true, List.isEmpty_iff] at hl
    refine ⟨?_, hl.1⟩
    cases hphase : (s.loops l).phase with
    | polling => rfl
    | _ => simp [hphase, LoopPhase.isPolling] at hl
  obtain ⟨hheld, -, -, -, hfds⟩ := tcpServer_at_rest twoLoops hreach hrest
  refine ⟨s, hreach, by rw [hmap]; rfl, ?_, ?_⟩
  · rw [Bool.eq_false_iff, Ne, hheld, hmap]
    simp
  · rw [Bool.eq_false_iff, Ne, hfds, hmap]
    simp [hfd]

end RainWebServer.Net
