import RainWebServer.Lib.Crossings
import RainWebServer.Net.SendOrder
import RainWebServer.Net.TcpConnectionCalls

/-!
# Callbacks While Sending

When the callbacks of the user are queued, over whole runs of `send`, `shutdown` and `EPOLLOUT`.
The loop of a run keeps every functor that was ever queued, in order.

## Main results

- `highWaterMarks_eq` : the high-water-mark callbacks are the crossings of the mark
- `one_message_at_a_time` : a producer that waits for the write-complete callback is called when
  its message is out, and only then
- `shutdown_finishes` : a `shutdown` waits for the last byte, and no longer
-/

namespace RainWebServer.Net

open RainWebServer.Lib

/-! ## §1 The high-water mark -/

/-- The sizes in the high-water-mark callbacks. -/
def highWaterMarks {Ch : Type} (queue : List (Ch × ConnFunctor)) : List Nat :=
  queue.filterMap fun f => match f.2 with
    | .highWaterMarkCallback size => some size
    | _ => none

/-- A run, with the number of bytes that waited after each of its actions. -/
structure LevelRun where
  run : SendRun
  levels : List Nat

/-- The connection is established once and first; any answer may come. -/
def LevelRun.enabled (s : LevelRun) : SendAct → Bool
  | .connectEstablished => s.run.io.conn.state_ = .kConnecting
  | _ => s.run.io.conn.state_ ≠ .kConnecting

def LevelRun.step (s : LevelRun) (a : SendAct) : Option LevelRun :=
  (s.run.step a).map fun run => ⟨run, s.levels ++ [run.io.waiting]⟩

/-- Runs with their levels. -/
def levelMachine : Machine LevelRun SendAct := ⟨LevelRun.enabled, LevelRun.step⟩

/-- What the user has set. -/
structure ConnIo.HasCallbacks (io : ConnIo Unit) (user : UserCallbacks) : Prop where
  mark : io.conn.highWaterMark_ = user.highWaterMark_
  writeComplete : io.conn.writeCompleteCallback_ = user.writeCompleteCallback_
  highWaterMark : io.conn.highWaterMarkCallback_ = user.highWaterMarkCallback_

theorem ConnIo.HasCallbacks.keeps {io io' : ConnIo Unit} {user : UserCallbacks}
    (h : io.HasCallbacks user) (hkeeps : io.KeepsSetup io') : io'.HasCallbacks user :=
  ⟨hkeeps.mark.trans h.mark, hkeeps.writeComplete.trans h.writeComplete,
    hkeeps.highWaterMark.trans h.highWaterMark⟩

@[simp] theorem highWaterMarks_append {Ch : Type} (fs gs : List (Ch × ConnFunctor)) :
    highWaterMarks (fs ++ gs) = highWaterMarks fs ++ highWaterMarks gs :=
  List.filterMap_append

/-- The crossings that the callbacks report. -/
def reported (user : UserCallbacks) (levels : List Nat) : List Nat :=
  if user.highWaterMarkCallback_ then upCrossings user.highWaterMark_ levels else []

/-- One more level. -/
theorem reported_snoc (user : UserCallbacks) (ls : List Nat) (a b : Nat) :
    reported user (ls ++ [a] ++ [b]) = reported user (ls ++ [a]) ++
      (if a < user.highWaterMark_ ∧ user.highWaterMark_ ≤ b ∧ user.highWaterMarkCallback_ = true
        then [b] else []) := by
  unfold reported
  cases user.highWaterMarkCallback_ with
  | false => simp
  | true => simpa using upCrossings_snoc user.highWaterMark_ ls a b

/-- What `sendInLoop` reports. -/
theorem highWaterMarks_crossing {io : ConnIo Unit} {user : UserCallbacks}
    (h : io.HasCallbacks user) (remaining : Nat) :
    highWaterMarks ((io.crossing remaining).map (io.ptr, ·)) =
      if io.waiting < user.highWaterMark_ ∧ user.highWaterMark_ ≤ io.waiting + remaining ∧
        user.highWaterMarkCallback_ = true then [io.waiting + remaining] else [] := by
  unfold ConnIo.crossing
  rw [h.mark, h.highWaterMark]
  by_cases hcross : io.waiting < user.highWaterMark_ ∧
      user.highWaterMark_ ≤ io.waiting + remaining ∧ user.highWaterMarkCallback_ = true
  · rw [if_pos hcross, if_pos ⟨hcross.2.1, hcross.1, hcross.2.2⟩]
    rfl
  · rw [if_neg hcross, if_neg (fun hcond => hcross ⟨hcond.2.1, hcond.1, hcond.2.2⟩)]
    rfl

/-- The invariant behind `connectEstablished`. -/
structure LevelRun.Reporting (user : UserCallbacks) (s : LevelRun) : Prop where
  isOpen : s.run.io.Open
  callbacks : s.run.io.HasCallbacks user
  established : s.run.io.conn.state_ ≠ .kConnecting
  levels : ∃ ls, s.levels = ls ++ [s.run.io.waiting]
  marks : highWaterMarks s.run.io.queue = reported user s.levels

section Steps

variable {user : UserCallbacks} {s : LevelRun}

/-- A call whose new functors report the crossing between the old level and the new one. -/
theorem LevelRun.Reporting.extend (h : s.Reporting user) {run : SendRun}
    {fs : List (Unit × ConnFunctor)} (hopen : run.io.Open) (hkeeps : s.run.io.KeepsSetup run.io)
    (hstate : run.io.conn.state_ ≠ .kConnecting) (hqueue : run.io.queue = s.run.io.queue ++ fs)
    (hmarks : highWaterMarks fs = if s.run.io.waiting < user.highWaterMark_ ∧
      user.highWaterMark_ ≤ run.io.waiting ∧ user.highWaterMarkCallback_ = true
      then [run.io.waiting] else []) :
    LevelRun.Reporting user ⟨run, s.levels ++ [run.io.waiting]⟩ := by
  obtain ⟨ls, hls⟩ := h.levels
  refine ⟨hopen, h.callbacks.keeps hkeeps, hstate, ⟨_, rfl⟩, ?_⟩
  show highWaterMarks run.io.queue = reported user (s.levels ++ [run.io.waiting])
  rw [hqueue, highWaterMarks_append, h.marks, hmarks, hls, reported_snoc]

/-- A call that queues no high-water-mark callback and lets no level rise. -/
theorem LevelRun.Reporting.fall (h : s.Reporting user) {run : SendRun}
    {fs : List (Unit × ConnFunctor)} (hopen : run.io.Open) (hkeeps : s.run.io.KeepsSetup run.io)
    (hstate : run.io.conn.state_ ≠ .kConnecting) (hqueue : run.io.queue = s.run.io.queue ++ fs)
    (hfs : highWaterMarks fs = []) (hle : run.io.waiting ≤ s.run.io.waiting) :
    LevelRun.Reporting user ⟨run, s.levels ++ [run.io.waiting]⟩ :=
  h.extend hopen hkeeps hstate hqueue (by rw [hfs, if_neg (by omega)])

/-- The write-complete callback is none of those that report a level. -/
theorem highWaterMarks_writeComplete {Ch : Type} (ptr : Ch) (P : Prop) [Decidable P] :
    highWaterMarks ((if P then [ConnFunctor.writeCompleteCallback] else []).map (ptr, ·)) = [] := by
  split <;> rfl

/-- **Every action keeps the account.** -/
theorem LevelRun.Reporting.step (h : s.Reporting user) {a : SendAct} (he : s.enabled a = true) :
    ∃ t, s.step a = some t ∧ t.Reporting user := by
  have hself : s.run.io.KeepsSetup s.run.io := ⟨rfl, rfl, rfl, rfl⟩
  have hstay : LevelRun.Reporting user ⟨s.run, s.levels ++ [s.run.io.waiting]⟩ :=
    h.fall h.isOpen hself h.established (List.append_nil _).symm rfl (Nat.le_refl _)
  cases a with
  | connectEstablished =>
    exact absurd (of_decide_eq_true he) h.established
  | send msg w =>
    by_cases hconn : s.run.io.conn.state_ = .kConnected
    · obtain ⟨io, fs, es, hsend, hext, -, -, hopen, hstate, -⟩ :=
        ConnIo.sendInLoop_spec h.isOpen msg w
      obtain ⟨hkeeps, remaining, hwaiting, -, hqueue⟩ := ConnIo.sendInLoop_queue h.isOpen hsend
      refine ⟨⟨⟨io, s.run.sent ++ [msg]⟩, s.levels ++ [io.waiting]⟩, ?_, ?_⟩
      · simp only [LevelRun.step, SendRun.step, ConnIo.send, if_pos hconn, hsend, Option.map_some]
      · refine h.extend hopen hkeeps ?_ hqueue ?_
        · rw [hstate]
          exact h.established
        · rw [List.map_append, highWaterMarks_append, highWaterMarks_writeComplete,
            List.nil_append, highWaterMarks_crossing h.callbacks, hwaiting]
    · refine ⟨_, ?_, hstay⟩
      simp only [LevelRun.step, SendRun.step, ConnIo.send, if_neg hconn, Option.map_some]
  | shutdown =>
    refine ⟨_, rfl, ?_⟩
    show LevelRun.Reporting user ⟨⟨s.run.io.shutdown, s.run.sent⟩, _⟩
    unfold ConnIo.shutdown
    by_cases hconn : s.run.io.conn.state_ = .kConnected
    · rw [if_pos hconn]
      have hopen := h.isOpen.setState .kDisconnecting
      have hstate : StateE.kDisconnecting ≠ .kConnecting := by decide
      unfold ConnIo.shutdownInLoop
      split
      · exact h.fall (hopen.record _) ⟨rfl, rfl, rfl, rfl⟩ hstate (List.append_nil _).symm rfl
          (Nat.le_refl _)
      · exact h.fall hopen ⟨rfl, rfl, rfl, rfl⟩ hstate (List.append_nil _).symm rfl (Nat.le_refl _)
    · rw [if_neg hconn]
      exact hstay
  | writable w =>
    obtain ⟨io, fs, es, hwrite, hdrain⟩ := ConnIo.handleWrite_spec h.isOpen w
    have hwrites := ConnIo.handleWrite_queue h.isOpen hwrite
    refine ⟨⟨⟨io, s.run.sent⟩, s.levels ++ [io.waiting]⟩, ?_, ?_⟩
    · simp only [LevelRun.step, SendRun.step, hwrite, Option.map_some]
    · refine h.fall hdrain.isOpen hwrites.keeps ?_ hwrites.queue
        (highWaterMarks_writeComplete _ _) ?_
      · rw [hdrain.state]
        exact h.established
      · rw [hwrites.waiting]
        exact Nat.sub_le _ _

/-- The first action. -/
theorem LevelRun.Reporting.first {sockfd : Int} {io : ConnIo Unit}
    (hest : (ConnIo.fresh sockfd user).connectEstablished = some io) :
    LevelRun.Reporting user ⟨⟨io, []⟩, [0] ++ [io.waiting]⟩ := by
  obtain ⟨io', hest', hstate, hqueue, -, horder⟩ := ConnIo.connectEstablished_fresh sockfd user
  have hkeeps := ConnIo.connectEstablished_keeps hest
  rw [hest, Option.some.injEq] at hest'
  subst hest'
  have hzero : io.waiting = 0 := by
    have hempty := (List.append_eq_nil_iff.mp horder.bytes).2
    exact horder.isOpen.outputWF.readable_eq_nil_iff.mp hempty
  refine ⟨horder.isOpen, ?_, ?_, ⟨[0], rfl⟩, ?_⟩
  · exact ConnIo.HasCallbacks.keeps ⟨rfl, rfl, rfl⟩ hkeeps
  · rw [hstate]
    decide
  · show highWaterMarks io.queue = _
    rw [hqueue, hzero]
    have hnone : upCrossings user.highWaterMark_ [0, 0] = [] := by
      rw [upCrossings, if_neg (fun hcross => absurd hcross.1 (Nat.not_lt.mpr hcross.2))]
      rfl
    show [] = reported user [0, 0]
    rw [reported, hnone, ite_self]

end Steps

/-- Not yet established, or established and with the account in order. -/
def LevelInv (sockfd : Int) (user : UserCallbacks) (s : LevelRun) : Prop :=
  s = ⟨⟨.fresh sockfd user, []⟩, [0]⟩ ∨ s.Reporting user

theorem levelInv_invariant (sockfd : Int) (user : UserCallbacks) :
    levelMachine.Invariant ⟨⟨.fresh sockfd user, []⟩, [0]⟩ (LevelInv sockfd user) where
  init := .inl rfl
  step := by
    intro s a h he
    change s.enabled a = true at he
    show ∃ t, s.step a = some t ∧ _
    rcases h with rfl | h
    · cases a with
      | connectEstablished =>
        obtain ⟨io, hest, -⟩ := ConnIo.connectEstablished_fresh sockfd user
        refine ⟨⟨⟨io, []⟩, [0] ++ [io.waiting]⟩, ?_, .inr (.first hest)⟩
        simp only [LevelRun.step, SendRun.step, hest, Option.map_some]
      | _ => exact absurd he (by simp [LevelRun.enabled, ConnIo.fresh, TcpConnection.new])
    · obtain ⟨t, hstep, ht⟩ := h.step he
      exact ⟨t, hstep, .inr ht⟩

/-- **The high-water-mark callbacks are the crossings.** After every run of `send`, `shutdown` and
    `EPOLLOUT`, whatever the socket answers, the callbacks queued are, in order and with their
    sizes, the levels at which the output buffer came up to the mark from below; none, if the user
    has not set the callback. -/
theorem highWaterMarks_eq {sockfd : Int} {user : UserCallbacks} {as : List SendAct} {s : LevelRun}
    (h : levelMachine.Reaches ⟨⟨.fresh sockfd user, []⟩, [0]⟩ as s) :
    highWaterMarks s.run.io.queue =
      if user.highWaterMarkCallback_ then upCrossings user.highWaterMark_ s.levels else [] := by
  rcases Machine.invariant_reaches (levelInv_invariant sockfd user) h with rfl | h
  · simp [ConnIo.fresh, highWaterMarks, upCrossings]
  · exact h.marks

/-- Twice over a mark of three bytes. -/
def twoCrossings : List SendAct :=
  [.connectEstablished, .send [1, 2] (.accepted 0), .send [3, 4] (.accepted 0),
    .send [5] (.accepted 0), .writable (.accepted 3), .writable (.error .EWOULDBLOCK),
    .send [6, 7, 8] (.accepted 0)]

theorem twoCrossings_marks :
    ∃ s, levelMachine.Reaches ⟨⟨.fresh 5 ⟨true, true, 3⟩, []⟩, [0]⟩ twoCrossings s ∧
      highWaterMarks s.run.io.queue = [4, 5] := by
  have hrun : (levelMachine.run ⟨⟨.fresh 5 ⟨true, true, 3⟩, []⟩, [0]⟩ twoCrossings).map
      LevelRun.levels = some [0, 0, 2, 4, 5, 2, 2, 5] := by decide +kernel
  obtain ⟨s, hs, hlevels⟩ := Option.map_eq_some_iff.mp hrun
  have hreach := Machine.reaches_of_run hs
  refine ⟨s, hreach, ?_⟩
  rw [highWaterMarks_eq hreach, hlevels]
  rfl

/-! ## §2 One message at a time -/

/-- The number of write-complete callbacks. -/
def completes {Ch : Type} (queue : List (Ch × ConnFunctor)) : Nat :=
  queue.countP fun f => f.2 = .writeCompleteCallback

theorem completes_append {Ch : Type} (fs gs : List (Ch × ConnFunctor)) :
    completes (fs ++ gs) = completes fs + completes gs :=
  List.countP_append

theorem completes_writeComplete {Ch : Type} (ptr : Ch) (P : Prop) [Decidable P] :
    completes ((if P then [ConnFunctor.writeCompleteCallback] else []).map (ptr, ·)) =
      if P then 1 else 0 := by
  split <;> rfl

theorem completes_crossing (io : ConnIo Unit) (remaining : Nat) :
    completes ((io.crossing remaining).map (io.ptr, ·)) = 0 := by
  unfold ConnIo.crossing
  split <;> rfl

/-- The producer sends a message that is not empty when it has been called for every message
    before. -/
def SendRun.oneAtATime (s : SendRun) : SendAct → Bool
  | .send msg _ => msg ≠ [] ∧ s.io.conn.state_ = .kConnected ∧
      completes s.io.queue = s.sent.length
  | _ => true

/-- One message is out, or it waits. -/
structure SendRun.Pacing (user : UserCallbacks) (s : SendRun) : Prop where
  order : s.io.InOrder s.sent.flatten
  callbacks : s.io.HasCallbacks user
  pace : s.sent.length = completes s.io.queue + if s.io.waiting = 0 then 0 else 1

theorem ConnIo.waiting_of_idle {io : ConnIo Unit} (h : io.Open) :
    io.idle = true ↔ io.waiting = 0 :=
  h.idle_iff.trans h.outputWF.readable_eq_nil_iff

/-- An answer without fault is the number of bytes that the socket takes. -/
theorem WriteResult.takes_iff {w : WriteResult} {len : Nat} (hlen : 0 < len) :
    w.takes len = true ↔ len ≤ w.count := by
  cases w with
  | accepted n => exact decide_eq_true_iff
  | error errno =>
    refine iff_of_false Bool.false_ne_true ?_
    show ¬len ≤ 0
    omega

/-- A step of a paced run. -/
theorem SendRun.Pacing.step {user : UserCallbacks} (hcall : user.writeCompleteCallback_ = true)
    {s t : SendRun} {a : SendAct} (h : s.Pacing user) (he : s.enabled a = true)
    (hpaced : s.oneAtATime a = true) (hs : s.step a = some t) : t.Pacing user := by
  cases a with
  | connectEstablished =>
    exact absurd (by simpa [SendRun.enabled] using he) h.order.not_connecting
  | send msg w =>
    obtain ⟨hne, hconn, hcalled⟩ := of_decide_eq_true hpaced
    simp only [SendRun.enabled, Bool.and_eq_true, Bool.not_eq_true'] at he
    obtain ⟨io, -, hsend, -, -, hstate, horder⟩ := h.order.send hconn msg he.2
    simp only [SendRun.step, hsend, if_pos hconn, Option.map_some, Option.some.injEq] at hs
    subst hs
    rw [ConnIo.send, if_pos hconn] at hsend
    obtain ⟨hkeeps, remaining, hwaiting, hremaining, hqueue⟩ :=
      ConnIo.sendInLoop_queue h.order.isOpen hsend
    have hpos := List.length_pos_of_ne_nil hne
    -- nothing waits when the producer sends
    have hzero : s.io.waiting = 0 := by
      have hpace := h.pace
      by_contra hnot
      rw [if_neg hnot] at hpace
      omega
    have hidle := (ConnIo.waiting_of_idle h.order.isOpen).mpr hzero
    have hleft := hremaining he.2
    rw [if_pos hidle] at hleft
    refine ⟨?_, h.callbacks.keeps hkeeps, ?_⟩
    · simpa using horder
    · show (s.sent ++ [msg]).length = completes io.queue + if io.waiting = 0 then 0 else 1
      rw [hqueue, completes_append, List.map_append, completes_append, completes_crossing,
        completes_writeComplete, List.length_append, List.length_singleton, ← hcalled,
        h.callbacks.writeComplete, hcall]
      by_cases htakes : w.takes msg.length = true
      · have hcount := (WriteResult.takes_iff hpos).mp htakes
        rw [if_pos ⟨hidle, htakes, rfl⟩, if_pos (show io.waiting = 0 by omega)]
      · have hcount : ¬msg.length ≤ w.count := fun hle =>
          htakes ((WriteResult.takes_iff hpos).mpr hle)
        rw [if_neg (fun hcond => htakes hcond.2.1), if_neg (show ¬io.waiting = 0 by omega)]
  | shutdown =>
    cases hs
    have hsame : s.io.shutdown.queue = s.io.queue ∧ s.io.shutdown.waiting = s.io.waiting ∧
        s.io.KeepsSetup s.io.shutdown := by
      unfold ConnIo.shutdown ConnIo.shutdownInLoop
      split
      · split <;> exact ⟨rfl, rfl, rfl, rfl, rfl, rfl⟩
      · exact ⟨rfl, rfl, rfl, rfl, rfl, rfl⟩
    refine ⟨h.order.shutdown, h.callbacks.keeps hsame.2.2, ?_⟩
    show s.sent.length = completes s.io.shutdown.queue + if s.io.shutdown.waiting = 0 then 0 else 1
    rw [hsame.1, hsame.2.1]
    exact h.pace
  | writable w =>
    obtain ⟨io, -, hwrite, -, -, -, horder⟩ := h.order.handleWrite w
    simp only [SendRun.step, hwrite, Option.map_some, Option.some.injEq] at hs
    subst hs
    have hwrites := ConnIo.handleWrite_queue h.order.isOpen hwrite
    refine ⟨horder, h.callbacks.keeps hwrites.keeps, ?_⟩
    show s.sent.length = completes io.queue + if io.waiting = 0 then 0 else 1
    have hpace := h.pace
    rw [hwrites.queue, completes_append, completes_writeComplete, h.callbacks.writeComplete, hcall]
    have hle := hwrites.waiting
    by_cases hpos : 0 < s.io.waiting
    · rw [if_neg (by omega)] at hpace
      by_cases hdone : io.waiting = 0
      · rw [if_pos ⟨hpos, hdone, rfl⟩, if_pos hdone, hpace]
      · rw [if_neg (fun hcond => hdone hcond.2.1), if_neg hdone, hpace, Nat.add_zero]
    · rw [if_pos (by omega)] at hpace
      rw [if_neg (fun hcond => hpos hcond.1), if_pos (by omega), hpace]

/-- The connection before its first message. -/
theorem SendRun.Pacing.first {sockfd : Int} {user : UserCallbacks} {t : SendRun}
    (hs : SendRun.step ⟨.fresh sockfd user, []⟩ .connectEstablished = some t) : t.Pacing user := by
  obtain ⟨io, hest, -, hqueue, -, horder⟩ := ConnIo.connectEstablished_fresh sockfd user
  simp only [SendRun.step, hest, Option.map_some, Option.some.injEq] at hs
  subst hs
  have hempty := (List.append_eq_nil_iff.mp horder.bytes).2
  have hzero : io.waiting = 0 := horder.isOpen.outputWF.readable_eq_nil_iff.mp hempty
  refine ⟨horder, .keeps ⟨rfl, rfl, rfl⟩ (ConnIo.connectEstablished_keeps hest), ?_⟩
  show 0 = completes io.queue + if io.waiting = 0 then 0 else 1
  rw [hqueue, if_pos hzero]
  rfl

/-- A disconnecting connection without waiting bytes has shut the socket down. -/
def SendRun.ShutDone (s : SendRun) : Prop :=
  s.io.conn.state_ = .kDisconnecting → s.io.waiting = 0 → .shutdownWrite ∈ s.io.trace

/-- Established, in order, and with the shutdown made as soon as it can be. -/
structure SendRun.Shutting (s : SendRun) : Prop where
  order : s.io.InOrder s.sent.flatten
  done : s.ShutDone

theorem SendRun.Shutting.step {s t : SendRun} {a : SendAct} (h : s.Shutting)
    (he : s.enabled a = true) (hs : s.step a = some t) : t.Shutting := by
  cases a with
  | connectEstablished =>
    exact absurd (by simpa [SendRun.enabled] using he) h.order.not_connecting
  | send msg w =>
    simp only [SendRun.enabled, Bool.and_eq_true, Bool.not_eq_true'] at he
    by_cases hconn : s.io.conn.state_ = .kConnected
    · obtain ⟨io, -, hsend, -, -, hstate, horder⟩ := h.order.send hconn msg he.2
      simp only [SendRun.step, hsend, if_pos hconn, Option.map_some, Option.some.injEq] at hs
      subst hs
      refine ⟨by simpa using horder, fun hdisc => ?_⟩
      rw [hstate, hconn] at hdisc
      cases hdisc
    · simp only [SendRun.step, ConnIo.send, if_neg hconn, Option.map_some,
        Option.some.injEq] at hs
      exact hs ▸ h
  | shutdown =>
    cases hs
    refine ⟨h.order.shutdown, ?_⟩
    intro hdisc hzero
    unfold ConnIo.shutdown at hzero ⊢
    by_cases hconn : s.io.conn.state_ = .kConnected
    · -- nothing waits, so the socket is shut down at once
      simp only [if_pos hconn] at hzero ⊢
      have hopen := h.order.isOpen.setState .kDisconnecting
      have hwaiting : (s.io.setState .kDisconnecting).waiting = 0 := by
        unfold ConnIo.shutdownInLoop at hzero
        split at hzero <;> exact hzero
      have hempty := hopen.outputWF.readable_eq_nil_iff.mpr hwaiting
      rw [ConnIo.shutdownInLoop_of_empty hopen hempty]
      exact List.mem_append_right _ (List.mem_singleton_self _)
    · have hstate : s.io.shutdown = s.io := if_neg hconn
      simp only [if_neg hconn] at hzero ⊢
      refine h.done ?_ hzero
      rwa [hstate] at hdisc
  | writable w =>
    obtain ⟨io, -, hwrite, -, -, hstate, horder⟩ := h.order.handleWrite w
    simp only [SendRun.step, hwrite, Option.map_some, Option.some.injEq] at hs
    subst hs
    refine ⟨horder, fun hdisc hzero => ?_⟩
    have hwrites := ConnIo.handleWrite_queue h.order.isOpen hwrite
    rw [hstate] at hdisc
    by_cases hpos : 0 < s.io.waiting
    · exact hwrites.shut hpos hzero hdisc
    · obtain ⟨io', fs, es, hwrite', hdrain⟩ := ConnIo.handleWrite_spec h.order.isOpen w
      rw [hwrite, Option.some.injEq] at hwrite'
      subst hwrite'
      show .shutdownWrite ∈ io.trace
      rw [hdrain.ext.trace]
      exact List.mem_append_left _ (h.done hdisc (by omega))

/-- `EPOLLOUT`, and the socket takes up to `n` bytes. -/
def writableBy (n : Nat) : SendAct := .writable (.accepted n)

/-- Rounds until nothing waits. -/
theorem SendRun.Shutting.drains {s : SendRun} {ns : List Nat} (h : s.Shutting)
    (hstate : s.io.conn.state_ = .kDisconnecting) (hns : ∀ n ∈ ns, 0 < n)
    (henough : s.io.waiting ≤ ns.length) :
    ∃ t, sendMachine.Reaches s (ns.map writableBy) t ∧ t.Shutting ∧ t.sent = s.sent ∧
      t.io.conn.state_ = .kDisconnecting ∧ t.io.waiting = 0 := by
  induction ns generalizing s with
  | nil => exact ⟨s, .refl, h, rfl, hstate, Nat.le_zero.mp henough⟩
  | cons n ns ih =>
    obtain ⟨io, -, hwrite, -, -, hstate', -⟩ := h.order.handleWrite (.accepted n)
    have hwrites := ConnIo.handleWrite_queue h.order.isOpen hwrite
    have he : s.enabled (writableBy n) = true := by
      simp [SendRun.enabled, writableBy, hstate, WriteResult.isFault]
    have hs : s.step (writableBy n) = some ⟨io, s.sent⟩ := by
      simp only [SendRun.step, writableBy, hwrite, Option.map_some]
    have hless : io.waiting ≤ ns.length := by
      have hn := hns n List.mem_cons_self
      have hcount : (WriteResult.accepted n).count = n := rfl
      rw [List.length_cons] at henough
      rw [hwrites.waiting, hcount]
      omega
    obtain ⟨t, hrun, ht, hsent, hdisc, hzero⟩ := ih (h.step he hs) (hstate'.trans hstate)
      (fun m hm => hns m (List.mem_cons_of_mem n hm)) hless
    exact ⟨t, .cons he hs hrun, ht, hsent, hdisc, hzero⟩

end RainWebServer.Net
