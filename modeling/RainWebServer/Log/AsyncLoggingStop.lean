import RainWebServer.Log.AsyncLogging

/-!
# AsyncLogging: Stopping

`stop()` clears `running_`, which the backend tests only at the start of an iteration. What the
backend still writes depends on where it is at that moment: between the test and the swap of the
buffers it takes everything with the next swap, otherwise it leaves the loop without another
swap, and the final `flush` empties only the buffers of the file.

A line that does not fit into an empty buffer is not stored at all.

## Main results

- `backEnd_bytes` : what a step of the backend does to the bytes
- `stop_passes_lines_iff` : which lines are written when `threadFunc` returns
- `lateLineRun_loses` : a line that is lost
-/

namespace RainWebServer.Log

open RainWebServer.Lib

/-! ## §1 Lines of any length -/

/-- As `logEnabled`, with lines of any length. -/
def anyLineEnabled (s : AsyncLogging) : LogAct → Bool
  | .append _ => true
  | a => logEnabled s a

/-- The logger with lines of any length. -/
def anyLineMachine : Machine AsyncLogging LogAct := ⟨anyLineEnabled, logStep⟩

/-- What the front end stores of a line. -/
def stored (line : List Byte) : List Byte := if line.length < kLargeBufferSize then line else []

/-- The bytes that the front end holds. -/
def frontBytes (f : FrontEnd) : List Byte :=
  ((f.buffers_ ++ [f.currentBuffer_]).map ptrContent).flatten

/-- The bytes passed to `LogFile::append`, and those of the buffers that are being written. -/
def passedBytes (s : AsyncLogging) : List Byte :=
  s.output.flatten ++ (match s.back.pc with
    | .writing i => ((s.back.buffersToWrite.drop i).map ptrContent).flatten
    | _ => [])

/-- The pointers of both sides are as they should be. -/
structure PointersOk (s : AsyncLogging) : Prop where
  front : FrontOk s.front
  back : BackOk s.back

theorem WholeLines.flatten_eq {lines chunks : List (List Byte)} (h : WholeLines lines chunks) :
    chunks.flatten = lines.flatten := by
  obtain ⟨groups, rfl, rfl⟩ := h
  rw [List.flatten_flatten]

theorem wholeLines_self (chunks : List (List Byte)) : WholeLines chunks chunks := by
  refine ⟨chunks.map (fun line => [line]), ?_, ?_⟩
  · rw [List.map_map]
    exact List.map_id'' (fun line => by simp) chunks
  · induction chunks with
    | nil => rfl
    | cons line chunks ih => simp [ih]

/-- A buffer takes no line that is as long as itself. -/
theorem append_long {b : LargeBuffer} (h : b.WF) {line : List Byte}
    (hline : kLargeBufferSize ≤ line.length) : ¬b.avail > line.length ∧ b.append line = b := by
  have havail := h.avail_eq kLargeBufferSize_lt
  have hfit : ¬b.avail > line.length := by omega
  exact ⟨hfit, if_neg hfit⟩

/-- **The front end stores a line behind the bytes it holds.** -/
theorem frontEnd_stores {f : FrontEnd} (h : FrontOk f) (line : List Byte) :
    ∃ f', f.append line = some f' ∧ FrontOk f' ∧ frontBytes f' = frontBytes f ++ stored line := by
  rcases Nat.lt_or_ge line.length kLargeBufferSize with hline | hline
  · obtain ⟨f', happ, hok, hwhole⟩ := frontEnd_append h hline
    refine ⟨f', happ, hok, ?_⟩
    have hlines := (hwhole _ [] (wholeLines_self _)).flatten_eq
    rw [stored, if_pos hline]
    simpa [frontBytes] using hlines
  · -- the current buffer is put away for a new one, which stays empty
    obtain ⟨current, hcur, hwf⟩ := h.current
    obtain ⟨hfit, -⟩ := append_long hwf hline
    have hfresh : ∀ b : LargeBuffer, Spare (some b) →
        FrontOk ⟨some (b.append line), none, f.buffers_ ++ [some current]⟩ ∧
        frontBytes ⟨some (b.append line), none, f.buffers_ ++ [some current]⟩ =
          frontBytes f ++ stored line := by
      rintro b ⟨b', hb, hwf', hempty⟩
      cases hb
      rw [(append_long hwf' hline).2, stored, if_neg (Nat.not_lt.mpr hline)]
      refine ⟨⟨⟨b, rfl, hwf'⟩, .inl rfl, ?_, fun _ => by simp⟩, ?_⟩
      · intro p hp
        rcases List.mem_append.mp hp with hp | hp
        · exact h.buffers p hp
        · exact List.mem_singleton.mp hp ▸ ⟨current, rfl, hwf⟩
      · simp [frontBytes, hcur, ptrContent, hempty]
    cases hnext : f.nextBuffer_ with
    | some next =>
      have hspare : Spare (some next) := by simpa [hnext] using h.next
      exact ⟨_, by simp only [FrontEnd.append, hcur, Option.bind_eq_bind, Option.bind_some,
        if_neg hfit, hnext], hfresh next hspare⟩
    | none =>
      exact ⟨_, by simp only [FrontEnd.append, hcur, Option.bind_eq_bind, Option.bind_some,
        if_neg hfit, hnext], hfresh newLargeBuffer spare_new⟩

/-! ## §2 Steps -/

/-- Where the backend goes in a step that does not swap the buffers. -/
def NextPc (running : Bool) : BackEndPc → BackEndPc → Prop
  | .loopTest, pc => pc = if running then .locking else .returned
  | .locking, pc => pc = .waiting
  | .writing i, pc => pc = .writing (i + 1) ∨ pc = .loopTest
  | .waiting, _ => False
  | .notStarted, pc => pc = .notStarted
  | .returned, pc => pc = .returned

/-- The effect of the swap on the bytes. -/
theorem swap_bytes {s : AsyncLogging} (h : PointersOk s)
    (hpc : s.back.pc = .locking ∨ s.back.pc = .waiting) :
    let t := { s with
      front := (swapBuffers s.front s.back).1
      back := (swapBuffers s.front s.back).2 }
    PointersOk t ∧ t.back.pc = .writing 0 ∧ passedBytes t = passedBytes s ++ frontBytes s.front ∧
      frontBytes t.front = [] := by
  obtain ⟨h1, h2, hnil⟩ := h.back.spares hpc
  obtain ⟨hfront', hback', hpc', hwrite, hbuffers, hempty⟩ := swapBuffers_spec h.front h1 h2 hnil
  -- before the swap there is no buffer left to write
  have hpassed : passedBytes s = s.output.flatten := by
    rcases hpc with hpc | hpc <;> simp [passedBytes, hpc]
  refine ⟨⟨hfront', hback'⟩, hpc', ?_, ?_⟩
  · rw [hpassed]
    simp [passedBytes, hpc', hwrite, frontBytes]
  · simp [frontBytes, hbuffers, hempty]

/-- **A step of the backend** swaps the buffers, or it leaves the bytes where they are. -/
theorem backEnd_bytes {s : AsyncLogging} (h : PointersOk s) :
    ∃ t, backEndStep s = some t ∧ PointersOk t ∧ t.running_ = s.running_ ∧ t.lines = s.lines ∧
      ((s.back.pc = .locking ∨ s.back.pc = .waiting) ∧ t.back.pc = .writing 0 ∧
          passedBytes t = passedBytes s ++ frontBytes s.front ∧ frontBytes t.front = [] ∨
        passedBytes t = passedBytes s ∧ t.front = s.front ∧
          NextPc s.running_ s.back.pc t.back.pc) := by
  have hback := h.back
  unfold backEndStep
  cases hpc : s.back.pc with
  | notStarted => exact ⟨s, rfl, h, rfl, rfl, .inr ⟨rfl, rfl, hpc⟩⟩
  | returned => exact ⟨s, rfl, h, rfl, rfl, .inr ⟨rfl, rfl, hpc⟩⟩
  | loopTest =>
    simp only [BackOk, hpc] at hback
    refine ⟨_, rfl, ⟨h.front, ?_⟩, rfl, rfl, .inr ⟨?_, rfl, rfl⟩⟩
    · cases s.running_
      · exact hback.2.2
      · exact hback
    · cases hrun : s.running_ <;> simp [passedBytes, hpc]
  | locking =>
    simp only
    -- with no full buffer the backend waits first; a line may still be added meanwhile
    split
    · simp only [BackOk, hpc] at hback
      exact ⟨_, rfl, ⟨h.front, hback⟩, rfl, rfl, .inr ⟨by simp [passedBytes, hpc], rfl, rfl⟩⟩
    · obtain ⟨hok, hpc', hbytes⟩ := swap_bytes h (.inl hpc)
      exact ⟨_, rfl, hok, rfl, rfl, .inl ⟨.inl (by simp), hpc', hbytes⟩⟩
  | waiting =>
    obtain ⟨hok, hpc', hbytes⟩ := swap_bytes h (.inr hpc)
    exact ⟨_, rfl, hok, rfl, rfl, .inl ⟨.inr (by simp), hpc', hbytes⟩⟩
  | writing i =>
    simp only [BackOk, hpc] at hback
    cases hget : s.back.buffersToWrite[i]? with
    | some buffer =>
      obtain ⟨hi, hbuffer⟩ := List.getElem?_eq_some_iff.mp hget
      -- one buffer goes from `buffersToWrite` to the file
      obtain ⟨b, rfl, -⟩ := hback.2.2.1 buffer (hbuffer ▸ List.getElem_mem hi)
      refine ⟨{ s with
        output := s.output ++ [b.content]
        back := { s.back with pc := .writing (i + 1) } }, by simp [hget], ⟨h.front, hback⟩, rfl,
        rfl, .inr ⟨?_, rfl, .inl rfl⟩⟩
      simp only [passedBytes, hpc]
      rw [List.drop_eq_getElem_cons hi, hbuffer]
      simp [ptrContent]
    | none =>
      -- all of them are written, so what `clear` drops is in the file
      have hdone : s.back.buffersToWrite.drop i = [] :=
        List.drop_eq_nil_of_le (List.getElem?_eq_none_iff.mp hget)
      obtain ⟨nb1, nb2, hrec, hspare1, hspare2⟩ := recycle_spec hpc h.back
      refine ⟨{ s with back := ⟨.loopTest, some nb1, some nb2, []⟩ }, by simp [hget, hrec],
        ⟨h.front, hspare1, hspare2, rfl⟩, rfl, rfl, .inr ⟨?_, rfl, .inr rfl⟩⟩
      simp [passedBytes, hpc, hdone]

/-- What an action other than a step of the backend does. -/
theorem frontEnd_step {s t : AsyncLogging} {a : LogAct} (h : PointersOk s) (ha : a ≠ .backEnd)
    (he : anyLineMachine.enabled s a = true) (hs : anyLineMachine.step s a = some t) :
    PointersOk t ∧ passedBytes t = passedBytes s ∧
      (∃ line, a = .append line ∧ t.lines = s.lines ++ [line] ∧ t.running_ = s.running_ ∧
          t.back.pc = s.back.pc ∧ frontBytes t.front = frontBytes s.front ++ stored line ∨
        a = .start ∧ s.back.pc = .notStarted ∧ t.running_ = true ∧ t.back.pc = .loopTest ∧
          t.lines = s.lines ∧ t.front = s.front ∨
        a = .stop ∧ t = { s with running_ := false }) := by
  cases a with
  | append line =>
    obtain ⟨front, happ, hfront, hbytes⟩ := frontEnd_stores h.front line
    simp only [anyLineMachine, logStep, happ, Option.bind_eq_bind, Option.bind_some,
      Option.some.injEq] at hs
    subst hs
    exact ⟨⟨hfront, h.back⟩, rfl, line, .inl ⟨rfl, rfl, rfl, rfl, hbytes⟩⟩
  | start =>
    have hpc : s.back.pc = .notStarted := by
      simpa [anyLineMachine, anyLineEnabled, logEnabled] using he
    have hspare : Spare (some newLargeBuffer.bzero) := spare_bzero spare_new rfl
    simp only [anyLineMachine, logStep, Option.some.injEq] at hs
    subst hs
    refine ⟨⟨h.front, hspare, hspare, rfl⟩, ?_, [], .inr (.inl ⟨rfl, hpc, rfl, rfl, rfl, rfl⟩)⟩
    simp [passedBytes, hpc]
  | stop =>
    simp only [anyLineMachine, logStep, Option.some.injEq] at hs
    subst hs
    exact ⟨⟨h.front, h.back⟩, rfl, [], .inr (.inr ⟨rfl, rfl⟩)⟩
  | backEnd => exact absurd rfl ha

/-! ## §3 Runs -/

/-- After every run the stored bytes of the lines are passed on or held by the front end. -/
theorem anyLine_bytes {as : List LogAct} {s : AsyncLogging}
    (h : anyLineMachine.Reaches AsyncLogging.new as s) :
    PointersOk s ∧ passedBytes s ++ frontBytes s.front = (s.lines.map stored).flatten := by
  induction h with
  | refl => exact ⟨⟨logInv_new.front, logInv_new.back⟩, rfl⟩
  | @snoc as t u a _ he hs ih =>
    obtain ⟨hok, hbytes⟩ := ih
    rcases Classical.em (a = .backEnd) with rfl | ha
    · obtain ⟨v, hv, hok', -, hlines, hmoved⟩ := backEnd_bytes hok
      rw [show anyLineMachine.step t .backEnd = backEndStep t from rfl, hv,
        Option.some.injEq] at hs
      subst hs
      refine ⟨hok', ?_⟩
      rw [hlines, ← hbytes]
      rcases hmoved with ⟨-, -, hpassed, hfront⟩ | ⟨hpassed, hfront, -⟩
      · rw [hpassed, hfront, List.append_nil]
      · rw [hpassed, hfront]
    · obtain ⟨hok', hpassed, line, hcases⟩ := frontEnd_step hok ha he hs
      refine ⟨hok', ?_⟩
      rw [hpassed]
      rcases hcases with ⟨-, hlines, -, -, hfront⟩ | ⟨-, -, -, -, hlines, hfront⟩ | ⟨-, rfl⟩
      · rw [hlines, hfront, List.map_append, List.flatten_append, ← List.append_assoc, hbytes]
        simp
      · rw [hlines, hfront, hbytes]
      · exact hbytes

/-- The backend reaches the end of `threadFunc` without another swap. -/
def Leaving : BackEndPc → Prop
  | .loopTest | .writing _ | .returned => True
  | _ => False

/-- The bytes `x` are on their way to the file: they are passed on, or the next swap takes them
    along. -/
def Flushes (x : List Byte) (s : AsyncLogging) : Prop :=
  s.running_ = false ∧
    ((s.back.pc = .locking ∨ s.back.pc = .waiting) ∧
        x <+: passedBytes s ++ frontBytes s.front ∨
      Leaving s.back.pc ∧ x <+: passedBytes s)

/-- The logger is stopped and passes on nothing but `x`. -/
def PassesOnly (x : List Byte) (s : AsyncLogging) : Prop :=
  s.running_ = false ∧ Leaving s.back.pc ∧ passedBytes s = x

/-- The thread does not return, because nothing stops it. -/
def RunsOn (s : AsyncLogging) : Prop :=
  s.back.pc = .notStarted ∨ s.running_ = true ∧ s.back.pc ≠ .returned

theorem Leaving.next {pc pc' : BackEndPc} (h : Leaving pc) (hnext : NextPc false pc pc') :
    Leaving pc' := by
  cases pc with
  | loopTest => exact hnext ▸ trivial
  | writing i => rcases hnext with rfl | rfl <;> trivial
  | returned => exact hnext ▸ trivial
  | notStarted => exact h.elim
  | locking => exact h.elim
  | waiting => exact h.elim

theorem Leaving.not_swapping {pc : BackEndPc} (h : Leaving pc) :
    ¬(pc = .locking ∨ pc = .waiting) ∧ pc ≠ .notStarted := by
  cases pc <;> simp_all [Leaving]

/-- What is known after a step of the backend. -/
theorem backEnd_moved {s t : AsyncLogging} (hok : PointersOk s)
    (hs : anyLineMachine.step s .backEnd = some t) :
    t.running_ = s.running_ ∧
      ((s.back.pc = .locking ∨ s.back.pc = .waiting) ∧ t.back.pc = .writing 0 ∧
          passedBytes t = passedBytes s ++ frontBytes s.front ∧ frontBytes t.front = [] ∨
        passedBytes t = passedBytes s ∧ t.front = s.front ∧
          NextPc s.running_ s.back.pc t.back.pc) := by
  obtain ⟨v, hv, -, hrun, -, hmoved⟩ := backEnd_bytes hok
  have hs' : backEndStep s = some t := hs
  rw [hv, Option.some.injEq] at hs'
  subst hs'
  exact ⟨hrun, hmoved⟩

/-- A step keeps the bytes on their way. -/
theorem Flushes.step {x : List Byte} {s t : AsyncLogging} {a : LogAct} (h : Flushes x s)
    (hok : PointersOk s) (he : anyLineMachine.enabled s a = true)
    (hs : anyLineMachine.step s a = some t) : Flushes x t := by
  obtain ⟨hrunning, hbytes⟩ := h
  rcases Classical.em (a = .backEnd) with rfl | ha
  · obtain ⟨hrun, hmoved⟩ := backEnd_moved hok hs
    refine ⟨hrun.trans hrunning, ?_⟩
    rw [hrunning] at hmoved
    rcases hmoved with ⟨hpc, hpc', hpassed, -⟩ | ⟨hpassed, hfront, hnext⟩
    · -- the swap takes everything along
      refine .inr ⟨hpc' ▸ trivial, ?_⟩
      rw [hpassed]
      rcases hbytes with ⟨-, hx⟩ | ⟨hleaving, -⟩
      · exact hx
      · exact absurd hpc hleaving.not_swapping.1
    · rw [hpassed, hfront]
      rcases hbytes with ⟨hpc, hx⟩ | ⟨hleaving, hx⟩
      · refine .inl ⟨.inr ?_, hx⟩
        rcases hpc with hpc | hpc
        · rw [hpc] at hnext
          exact hnext
        · rw [hpc] at hnext
          exact hnext.elim
      · exact .inr ⟨hleaving.next hnext, hx⟩
  · obtain ⟨-, hpassed, line, hcases⟩ := frontEnd_step hok ha he hs
    rcases hcases with ⟨-, -, hrun, hpc, hfront⟩ | ⟨-, hpc, -⟩ | ⟨-, rfl⟩
    · refine ⟨hrun.trans hrunning, ?_⟩
      rw [hpc, hpassed, hfront, ← List.append_assoc]
      exact hbytes.imp_left (fun hx => ⟨hx.1, hx.2.trans (List.prefix_append _ _)⟩)
    · rcases hbytes with ⟨hpc', -⟩ | ⟨hleaving, -⟩
      · rw [hpc] at hpc'
        simp at hpc'
      · exact absurd hpc hleaving.not_swapping.2
    · exact ⟨rfl, hbytes⟩

/-- A logger that leaves the loop passes on nothing new. -/
theorem PassesOnly.step {x : List Byte} {s t : AsyncLogging} {a : LogAct} (h : PassesOnly x s)
    (hok : PointersOk s) (he : anyLineMachine.enabled s a = true)
    (hs : anyLineMachine.step s a = some t) : PassesOnly x t := by
  obtain ⟨hrunning, hleaving, hx⟩ := h
  rcases Classical.em (a = .backEnd) with rfl | ha
  · obtain ⟨hrun, hmoved⟩ := backEnd_moved hok hs
    rw [hrunning] at hmoved
    rcases hmoved with ⟨hpc, -⟩ | ⟨hpassed, -, hnext⟩
    · exact absurd hpc hleaving.not_swapping.1
    · exact ⟨hrun.trans hrunning, hleaving.next hnext, hpassed.trans hx⟩
  · obtain ⟨-, hpassed, line, hcases⟩ := frontEnd_step hok ha he hs
    rcases hcases with ⟨-, -, hrun, hpc, -⟩ | ⟨-, hpc, -⟩ | ⟨-, rfl⟩
    · exact ⟨hrun.trans hrunning, hpc ▸ hleaving, hpassed.trans hx⟩
    · exact absurd hpc hleaving.not_swapping.2
    · exact ⟨rfl, hleaving, hx⟩

/-- Only `stop()` ends the thread. -/
theorem RunsOn.step {s t : AsyncLogging} {a : LogAct} (h : RunsOn s) (hok : PointersOk s)
    (ha : a ≠ .stop) (he : anyLineMachine.enabled s a = true)
    (hs : anyLineMachine.step s a = some t) : RunsOn t := by
  rcases Classical.em (a = .backEnd) with rfl | hb
  · obtain ⟨hrun, hmoved⟩ := backEnd_moved hok hs
    rcases h with hpc | ⟨hrunning, hpc⟩
    · simp [anyLineMachine, anyLineEnabled, logEnabled, hpc] at he
    · refine .inr ⟨hrun.trans hrunning, ?_⟩
      rw [hrunning] at hmoved
      rcases hmoved with ⟨-, hpc', -⟩ | ⟨-, -, hnext⟩
      · simp [hpc']
      · cases hpc₀ : s.back.pc <;> simp_all [NextPc]
        rcases hnext with hnext | hnext <;> simp [hnext]
  · obtain ⟨-, -, line, hcases⟩ := frontEnd_step hok hb he hs
    rcases hcases with ⟨-, -, hrun, hpc, -⟩ | ⟨-, -, hrun, hpc, -⟩ | ⟨hstop, -⟩
    · rw [RunsOn, hpc, hrun]
      exact h
    · exact .inr ⟨hrun, by simp [hpc]⟩
    · exact absurd hstop ha

/-- What the states of a run after `stop()` have in common. -/
theorem invariant_after_stop {I : AsyncLogging → Prop} {as₁ as₂ : List LogAct}
    {s₁ s₂ : AsyncLogging} (h₁ : anyLineMachine.Reaches AsyncLogging.new as₁ s₁)
    (h₂ : anyLineMachine.Reaches s₁ (.stop :: as₂) s₂) (hstop : LogAct.stop ∉ as₂)
    (hinit : I { s₁ with running_ := false })
    (hstep : ∀ s a t, I s → PointersOk s → a ≠ .stop → anyLineMachine.enabled s a = true →
      anyLineMachine.step s a = some t → I t) : PointersOk s₂ ∧ I s₂ := by
  obtain ⟨s, -, hs, hrun⟩ := h₂.head
  have hs' : { s₁ with running_ := false } = s := Option.some.inj hs
  have hok : PointersOk s := by
    obtain ⟨hok, -⟩ := anyLine_bytes h₁
    exact hs' ▸ ⟨hok.front, hok.back⟩
  have hI : I s := hs' ▸ hinit
  clear h₂ hs hs'
  induction hrun with
  | refl => exact ⟨hok, hI⟩
  | @snoc as t u a _ he hs ih =>
    rw [List.mem_append, not_or, List.mem_singleton] at hstop
    obtain ⟨hokt, hIt⟩ := ih hstop.1
    have ha : a ≠ .stop := fun heq => hstop.2 heq.symm
    refine ⟨?_, hstep t a u hIt hokt ha he hs⟩
    rcases Classical.em (a = .backEnd) with rfl | hb
    · obtain ⟨v, hv, hokv, -⟩ := backEnd_bytes hokt
      rw [show anyLineMachine.step t .backEnd = backEndStep t from rfl, hv,
        Option.some.injEq] at hs
      exact hs ▸ hokv
    · exact (frontEnd_step hokt hb he hs).1

/-- **Which lines are written.** When `threadFunc` returns after a single `stop()`, the lines
    appended before it, none of which was too long for a buffer, were passed to
    `LogFile::append` exactly if `stop()` found the backend between its test of `running_` and
    the swap of the buffers, or found the buffers of the front end empty. -/
theorem stop_passes_lines_iff {as₁ as₂ : List LogAct} {s₁ s₂ : AsyncLogging}
    (h₁ : anyLineMachine.Reaches AsyncLogging.new as₁ s₁)
    (h₂ : anyLineMachine.Reaches s₁ (.stop :: as₂) s₂) (hstop : LogAct.stop ∉ as₂)
    (hreturned : s₂.back.pc = .returned)
    (hshort : ∀ line ∈ s₁.lines, line.length < kLargeBufferSize) :
    s₁.lines.flatten <+: s₂.output.flatten ↔
      (s₁.back.pc = .locking ∨ s₁.back.pc = .waiting) ∨ frontBytes s₁.front = [] := by
  obtain ⟨-, hbytes⟩ := anyLine_bytes h₁
  have hlines : passedBytes s₁ ++ frontBytes s₁.front = s₁.lines.flatten := by
    rw [hbytes]
    congr 1
    refine (List.map_congr_left fun line hline => ?_).trans (List.map_id _)
    exact if_pos (hshort line hline)
  have houtput : passedBytes s₂ = s₂.output.flatten := by
    simp [passedBytes, hreturned]
  rcases Classical.em (s₁.back.pc = .notStarted) with hpc | hpc
  · -- started after the stop, the thread runs on
    obtain ⟨-, hrunsOn⟩ := invariant_after_stop h₁ h₂ hstop (I := RunsOn) (.inl hpc)
      (fun _ _ _ h hok ha he hs => h.step hok ha he hs)
    rcases hrunsOn with hnot | ⟨-, hnot⟩
    · rw [hreturned] at hnot
      cases hnot
    · exact absurd hreturned hnot
  constructor
  · intro hwritten
    by_contra hcond
    rw [not_or] at hcond
    have hleaving : Leaving s₁.back.pc := by
      cases hpc₁ : s₁.back.pc <;> simp_all [Leaving]
    obtain ⟨-, -, -, hpassed⟩ := invariant_after_stop h₁ h₂ hstop
      (I := PassesOnly (passedBytes s₁)) ⟨rfl, hleaving, rfl⟩
      (fun _ _ _ h hok _ he hs => h.step hok he hs)
    -- the bytes of the front end are missing in the output
    have hle := hwritten.length_le
    rw [← hlines, ← houtput, hpassed, List.length_append] at hle
    have hpos := List.length_pos_of_ne_nil hcond.2
    omega
  · intro hcond
    have hflush : Flushes s₁.lines.flatten { s₁ with running_ := false } := by
      refine ⟨rfl, ?_⟩
      rw [← hlines]
      rcases Classical.em (s₁.back.pc = .locking ∨ s₁.back.pc = .waiting) with hswap | hswap
      · exact .inl ⟨hswap, List.prefix_refl _⟩
      · refine .inr ⟨?_, ?_⟩
        · cases hpc₁ : s₁.back.pc <;> simp_all [Leaving]
        · rw [hcond.resolve_left hswap, List.append_nil]
          exact List.prefix_refl _
    obtain ⟨-, -, hpassed⟩ := invariant_after_stop h₁ h₂ hstop hflush
      (fun _ _ _ h hok _ he hs => h.step hok he hs)
    rcases hpassed with ⟨hpc₂, -⟩ | ⟨-, hpassed'⟩
    · rw [hreturned] at hpc₂
      simp at hpc₂
    · rwa [houtput] at hpassed'

/-- A line arrives while the backend waits. -/
def waitingRun : List LogAct := [.start, .backEnd, .backEnd, .append [65, 10]]

theorem waitingRun_passes_line :
    ∃ s₁ s₂, anyLineMachine.Reaches AsyncLogging.new waitingRun s₁ ∧
      anyLineMachine.Reaches s₁ [.stop, .backEnd, .backEnd, .backEnd, .backEnd] s₂ ∧
      s₂.back.pc = .returned ∧ [65, 10] <+: s₂.output.flatten := by
  have hrun₁ : (anyLineMachine.run AsyncLogging.new waitingRun).map (fun s =>
      (s.lines, s.back.pc, (anyLineMachine.run s [.stop, .backEnd, .backEnd, .backEnd,
        .backEnd]).map (fun t => t.back.pc))) =
      some ([[65, 10]], .waiting, some .returned) := by decide
  obtain ⟨s₁, hs₁, hstate⟩ := Option.map_eq_some_iff.mp hrun₁
  rw [Prod.mk.injEq, Prod.mk.injEq] at hstate
  obtain ⟨hlines, hpc, hrun₂⟩ := hstate
  obtain ⟨s₂, hs₂, hreturned⟩ := Option.map_eq_some_iff.mp hrun₂
  have h₁ := Machine.reaches_of_run hs₁
  have h₂ := Machine.reaches_of_run hs₂
  have hshort : ∀ line ∈ s₁.lines, line.length < kLargeBufferSize := by
    rw [hlines]
    decide
  have hpassed := (stop_passes_lines_iff h₁ h₂ (by simp) hreturned hshort).mpr (.inl (.inr hpc))
  rw [hlines] at hpassed
  exact ⟨s₁, s₂, h₁, h₂, hreturned, hpassed⟩

/-- A line arrives after the swap of the buffers, then the logger is stopped. -/
def lateLineRun : List LogAct := [.start, .backEnd, .backEnd, .backEnd, .append [65, 10]]

/-- **A line is lost.** The line was appended before `stop()`; when `threadFunc` returns it is
    still in the current buffer, and nothing was passed to `LogFile::append`. -/
theorem lateLineRun_loses :
    ∃ s₁ s₂, anyLineMachine.Reaches AsyncLogging.new lateLineRun s₁ ∧
      anyLineMachine.Reaches s₁ [.stop, .backEnd, .backEnd, .backEnd] s₂ ∧
      s₁.lines = [[65, 10]] ∧ s₂.back.pc = .returned ∧ s₂.output.flatten = [] ∧
      frontBytes s₂.front = [65, 10] := by
  have hrun₁ : (anyLineMachine.run AsyncLogging.new lateLineRun).map (fun s =>
      (s.lines, (anyLineMachine.run s [.stop, .backEnd, .backEnd, .backEnd]).map (fun t =>
        (t.back.pc, t.output.flatten, frontBytes t.front)))) =
      some ([[65, 10]], some (.returned, [], [65, 10])) := by decide
  obtain ⟨s₁, hs₁, hstate⟩ := Option.map_eq_some_iff.mp hrun₁
  rw [Prod.mk.injEq] at hstate
  obtain ⟨s₂, hs₂, hstate₂⟩ := Option.map_eq_some_iff.mp hstate.2
  rw [Prod.mk.injEq, Prod.mk.injEq] at hstate₂
  exact ⟨s₁, s₂, Machine.reaches_of_run hs₁, Machine.reaches_of_run hs₂, hstate.1, hstate₂⟩

end RainWebServer.Log
