import RainWebServer.Lib.Trace
import RainWebServer.Log.LogFile

/-!
# LogFile: When the Day Is Looked At

`appendInlock` looks at the day when `count_` has reached `checkEveryN_`. An append that finds the
file over the size does not get there, and does not reset `count_` either, so the next append that
finds it under the size looks at the day all the sooner. What the bound rests on is the first value
of `count_`, which the constructor does not set.

An append of a later day that looks always rolls: its second is after that of the last roll.

## Main result

`period_checked_iff` : among any `checkEveryN_` appends one finds the file over the size or looks
at the day, exactly if `count_` does not start below zero
-/

namespace RainWebServer.Log

open RainWebServer.Lib

/-! ## §1 Late appends -/

theorem periodOf_mono {s t : Int} (h : s ≤ t) : periodOf s ≤ periodOf t := by
  have hdays : s.tdiv kRollPerSeconds_ ≤ t.tdiv kRollPerSeconds_ :=
    Int.tdiv_le_tdiv (by decide) h
  exact Int.mul_le_mul_of_nonneg_right hdays (by decide)

/-- A time in a later day is a later time. -/
theorem lt_of_periodOf_lt {s t : Int} (h : periodOf s < periodOf t) : s < t :=
  Int.not_le.mp fun hle => absurd (periodOf_mono hle) (Int.not_le.mpr h)

/-- The number of late appends to the file before which `file` files were closed. -/
def lateOn (trace : List AppendEvent) (file : ℕ) : ℕ :=
  trace.countP fun event => event.late && event.file == file

theorem lateOn_snoc (trace : List AppendEvent) (event : AppendEvent) (file : ℕ) :
    lateOn (trace ++ [event]) file =
      lateOn trace file + if event.late = true ∧ event.file = file then 1 else 0 := by
  simp [lateOn, List.countP_append, List.countP_singleton]

theorem lateOn_eq_zero {trace : List AppendEvent} {file : ℕ}
    (h : ∀ event ∈ trace, event.file ≠ file) : lateOn trace file = 0 := by
  rw [lateOn, List.countP_eq_zero]
  intro event hevent
  simp [h event hevent]

/-- Among any `n` appends one finds the file over the size or looks at the day, and no file gets
    more than `n` appends of a later day. -/
structure PeriodChecked (n : ℕ) (trace : List AppendEvent) : Prop where
  windows : EveryWindow AppendEvent.looked n trace
  late_le : ∀ file, lateOn trace file ≤ n

/-! ## §2 The invariant -/

/-- What `count_` says about a run: it has counted the appends since the last one that looked,
    unless every file is over the size. The late appends to the current file are among them. -/
structure PeriodInv (rollsize checkEveryN : Int) (run : LogRun) : Prop where
  rollsize_eq : run.log.rollsize_ = rollsize
  checkEveryN_eq : run.log.checkEveryN_ = checkEveryN
  start_eq : run.log.startOfPeriod_ = periodOf run.log.lastRoll_
  clock : run.log.file_ ≠ none → run.log.lastRoll_ ≤ run.clock
  since_lt : (sinceLast AppendEvent.looked run.trace : Int) < checkEveryN
  counted : (sinceLast AppendEvent.looked run.trace : Int) ≤ run.log.count_ ∨ rollsize < 0
  file_le : ∀ event ∈ run.trace, event.file ≤ run.log.closed.length
  late_le : lateOn run.trace run.log.closed.length ≤ sinceLast AppendEvent.looked run.trace
  late_day : 0 < lateOn run.trace run.log.closed.length →
    run.log.startOfPeriod_ < periodOf run.clock
  checked : PeriodChecked checkEveryN.toNat run.trace

variable {timebuf : Int → List Byte} {basename : List Byte}
  {rollsize flushInterval checkEveryN junk start : Int} {run run' : LogRun} {call : AppendCall}

/-- What the constructor leaves, also before the epoch, where it opens no file. -/
theorem LogFile.new_fields (timebuf : Int → List Byte) (basename : List Byte)
    (rollsize flushInterval checkEveryN junk now : Int) {log : LogFile}
    (hlog : log = .new timebuf basename rollsize flushInterval checkEveryN junk now) :
    log.rollsize_ = rollsize ∧ log.checkEveryN_ = checkEveryN ∧ log.count_ = junk ∧
      log.startOfPeriod_ = periodOf log.lastRoll_ ∧ (log.file_ ≠ none → log.lastRoll_ ≤ now) := by
  subst hlog
  rcases Int.lt_or_le 0 now with hpos | hneg
  · rw [LogFile.new_spec timebuf basename rollsize flushInterval checkEveryN junk hpos]
    exact ⟨rfl, rfl, rfl, rfl, fun _ => Int.le_refl _⟩
  · unfold LogFile.new LogFile.rollFile
    rw [if_neg (Int.not_lt.mpr hneg)]
    exact ⟨rfl, rfl, rfl, rfl, fun h => absurd rfl h⟩

theorem PeriodInv.init (hN : 1 ≤ checkEveryN) (hjunk : 0 ≤ junk ∨ rollsize < 0) :
    PeriodInv rollsize checkEveryN
      (.new timebuf basename rollsize flushInterval checkEveryN junk start) := by
  obtain ⟨hsize, hlimit, hcount, hstart, hclock⟩ :=
    LogFile.new_fields timebuf basename rollsize flushInterval checkEveryN junk start rfl
  exact {
    rollsize_eq := hsize
    checkEveryN_eq := hlimit
    start_eq := hstart
    clock := hclock
    since_lt := hN
    counted := hjunk.imp_left fun hnonneg => hnonneg.trans_eq hcount.symm
    file_le := fun _ hevent => absurd hevent List.not_mem_nil
    late_le := Nat.le_refl 0
    late_day := fun h => absurd h (Nat.lt_irrefl 0)
    checked := ⟨EveryWindow.nil (by omega), fun _ => Nat.zero_le _⟩ }

/-! ## §3 One append -/

/-- A log without a file faults. -/
theorem file_of_step (hs : (logFileMachine timebuf).step run call = some run') :
    ∃ file, run.log.file_ = some file := by
  obtain ⟨written, hwrite, -⟩ := Option.bind_eq_some_iff.mp hs
  obtain ⟨file, hfile, -⟩ := Option.bind_eq_some_iff.mp hwrite
  exact ⟨file, hfile⟩

namespace PeriodInv

variable {written : FileUtil}

/-- A further append keeps the property while the count is below `checkEveryN_`. -/
theorem checked_snoc (h : PeriodInv rollsize checkEveryN run) {event : AppendEvent}
    (hfile : event.file = run.log.closed.length)
    (hsince : (sinceLast AppendEvent.looked (run.trace ++ [event]) : Int) < checkEveryN) :
    PeriodChecked checkEveryN.toNat (run.trace ++ [event]) := by
  refine ⟨h.checked.windows.snoc (by omega), fun file => ?_⟩
  -- only the count of the current file can grow
  rw [lateOn_snoc]
  by_cases hcurrent : event.file = file
  · -- the late appends to the current file have all been counted
    have hlate := h.late_le
    have hlt := h.since_lt
    rw [← hcurrent, hfile]
    split <;> omega
  · rw [if_neg fun hevent => hcurrent hevent.2]
    exact h.checked.late_le file

theorem file_le_snoc (h : PeriodInv rollsize checkEveryN run) {event : AppendEvent}
    (hfile : event.file = run.log.closed.length) :
    ∀ e ∈ run.trace ++ [event], e.file ≤ run.log.closed.length := by
  intro e he
  rcases List.mem_append.mp he with hold | hnew
  · exact h.file_le e hold
  · rw [List.mem_singleton.mp hnew]
    exact Nat.le_of_eq hfile

/-- An append that stays: if it looks, its day is that of the file, and so are those of all appends
    before it. -/
theorem stays (h : PeriodInv rollsize checkEveryN run)
    (hfile : run.log.file_ ≠ none) (hsetup : run.log.SameSetup run'.log)
    (hstays : (run.log.wrote written).Stays written run'.log)
    (htimes : run.clock ≤ call.now ∧ call.now ≤ run'.clock)
    (htrace : run'.trace = run.trace ++ [appendEvent (run.log.wrote written) call])
    (hlate : (appendEvent (run.log.wrote written) call).looked = true →
      (appendEvent (run.log.wrote written) call).late = false)
    (hsince : (sinceLast AppendEvent.looked run'.trace : Int) < checkEveryN)
    (hcounted : (sinceLast AppendEvent.looked run'.trace : Int) ≤ run'.log.count_ ∨ rollsize < 0) :
    PeriodInv rollsize checkEveryN run' := by
  have hclosed : run'.log.closed.length = run.log.closed.length :=
    congrArg List.length hstays.closed
  have hstart : run'.log.startOfPeriod_ = run.log.startOfPeriod_ := hstays.startOfPeriod
  have hlast : run'.log.lastRoll_ = run.log.lastRoll_ := hstays.lastRoll
  have hday := periodOf_mono htimes.1
  have hday' := periodOf_mono htimes.2
  have hon : lateOn run'.trace run'.log.closed.length =
      lateOn run.trace run.log.closed.length +
        if (appendEvent (run.log.wrote written) call).late = true then 1 else 0 := by
    rw [htrace, hclosed, lateOn_snoc]
    exact congrArg _ (by simp [appendEvent, LogFile.wrote])
  -- a late append to the current file shows that the clock is in a later day
  have hlateDay : 0 < lateOn run'.trace run'.log.closed.length →
      run.log.startOfPeriod_ < periodOf call.now := by
    intro hpos
    by_cases hold : 0 < lateOn run.trace run.log.closed.length
    · exact Int.lt_of_lt_of_le (h.late_day hold) hday
    · rw [hon] at hpos
      split at hpos
      · rename_i hevent
        exact of_decide_eq_true hevent
      · omega
  exact {
    rollsize_eq := hsetup.rollsize.trans h.rollsize_eq
    checkEveryN_eq := hsetup.checkEveryN.trans h.checkEveryN_eq
    start_eq := by
      rw [hstart, hlast]
      exact h.start_eq
    clock := fun _ => by
      rw [hlast]
      exact Int.le_trans (h.clock hfile) (Int.le_trans htimes.1 htimes.2)
    since_lt := hsince
    counted := hcounted
    file_le := by
      rw [htrace, hclosed]
      exact h.file_le_snoc rfl
    late_le := by
      cases hlooked : (appendEvent (run.log.wrote written) call).looked with
      | true =>
        -- no append to this file is late
        have hnot := hlate hlooked
        have hnone : ¬0 < lateOn run'.trace run'.log.closed.length := fun hpos =>
          absurd (hlateDay hpos) (of_decide_eq_false hnot)
        omega
      | false =>
        rw [hon, htrace, sinceLast_snoc, hlooked, if_neg Bool.false_ne_true]
        have hle := h.late_le
        split <;> omega
    late_day := by
      rw [hstart]
      exact fun hpos => Int.lt_of_lt_of_le (hlateDay hpos) hday'
    checked := by
      rw [htrace] at hsince ⊢
      exact h.checked_snoc rfl hsince }

/-- An append that rolls: nothing has been written to the new file. -/
theorem rolls (h : PeriodInv rollsize checkEveryN run)
    (hsetup : run.log.SameSetup run'.log)
    (hrolls : (run.log.wrote written).Rolls timebuf written run'.clock run'.log)
    (htrace : run'.trace = run.trace ++ [appendEvent (run.log.wrote written) call])
    (hsince : (sinceLast AppendEvent.looked run'.trace : Int) < checkEveryN)
    (hcounted : (sinceLast AppendEvent.looked run'.trace : Int) ≤ run'.log.count_ ∨ rollsize < 0) :
    PeriodInv rollsize checkEveryN run' := by
  have hclosed : run'.log.closed.length = run.log.closed.length + 1 := by
    rw [hrolls.closed, List.length_append]
    rfl
  have hfiles : ∀ event ∈ run'.trace, event.file ≤ run.log.closed.length := by
    rw [htrace]
    exact h.file_le_snoc rfl
  have hnone : lateOn run'.trace run'.log.closed.length = 0 := by
    refine lateOn_eq_zero fun event hevent heq => ?_
    have hle := hfiles event hevent
    omega
  exact {
    rollsize_eq := hsetup.rollsize.trans h.rollsize_eq
    checkEveryN_eq := hsetup.checkEveryN.trans h.checkEveryN_eq
    start_eq := by rw [hrolls.startOfPeriod, hrolls.lastRoll]
    clock := fun _ => by rw [hrolls.lastRoll]
    since_lt := hsince
    counted := hcounted
    file_le := fun event hevent => by
      have hle := hfiles event hevent
      omega
    late_le := hnone ▸ Nat.zero_le _
    late_day := fun hpos => absurd hnone (Nat.ne_of_gt hpos)
    checked := by
      rw [htrace] at hsince ⊢
      exact h.checked_snoc rfl hsince }

/-- An append keeps the invariant unless `count_` overflows. -/
theorem step (hN : 1 ≤ checkEveryN) (h : PeriodInv rollsize checkEveryN run)
    (he : (logFileMachine timebuf).enabled run call = true)
    (hcount : run.log.count_ ≠ 2 ^ 31 - 1)
    (hs : (logFileMachine timebuf).step run call = some run') :
    PeriodInv rollsize checkEveryN run' := by
  obtain ⟨file, hfile⟩ := file_of_step hs
  obtain ⟨written, calls, run₁, -, hstep, hsetup, hchecked, hclock, htrace⟩ :=
    logFileMachine_step timebuf hfile call
  rw [hs, Option.some.injEq] at hstep
  subst hstep
  have htimes : run.clock ≤ call.now ∧ call.now ≤ call.rollNow := of_decide_eq_true he
  rw [← hclock] at htimes hchecked
  have hsome : run.log.file_ ≠ none := hfile ▸ Option.some_ne_none file
  have hnext : increment run.log.count_ = run.log.count_ + 1 := if_neg hcount
  -- an append that looks starts a new count
  have hreset (hlooked : (appendEvent (run.log.wrote written) call).looked = true) :
      sinceLast AppendEvent.looked run'.trace = 0 := by
    rw [htrace, sinceLast_snoc, if_pos hlooked]
  -- a late append is after the last roll
  have hlater (hearly : run'.clock ≤ run.log.lastRoll_) :
      (appendEvent (run.log.wrote written) call).late = false := by
    refine decide_eq_false fun hlate => ?_
    have hday : periodOf run.log.lastRoll_ < periodOf call.now := h.start_eq ▸ hlate
    have hafter := lt_of_periodOf_lt hday
    omega
  cases hchecked with
  | overSize hover hcount' hroll =>
    have hlooked : (appendEvent (run.log.wrote written) call).looked = true := by
      simp [appendEvent, hover]
    have hzero := hreset hlooked
    have hcounted : (sinceLast AppendEvent.looked run'.trace : Int) ≤ run'.log.count_ ∨
        rollsize < 0 := by
      refine h.counted.imp_left fun hold => ?_
      have hwrote : run'.log.count_ = increment run.log.count_ := hcount'
      omega
    rcases hroll with hrolls | ⟨hearly, hstays⟩
    · exact h.rolls hsetup hrolls htrace (by omega) hcounted
    · exact h.stays hsome hsetup hstays htimes htrace (fun _ => hlater hearly) (by omega) hcounted
  | period hover hdue hcount' hroll =>
    have hlooked : (appendEvent (run.log.wrote written) call).looked = true := by
      simp [appendEvent, hdue]
    have hzero := hreset hlooked
    rcases hroll with hrolls | ⟨hsame, hstays⟩
    · exact h.rolls hsetup hrolls htrace (by omega) (.inl (by omega))
    · refine h.stays hsome hsetup hstays htimes htrace (fun _ => ?_) (by omega) (.inl (by omega))
      by_cases hday : periodOf call.now = run.log.startOfPeriod_
      · exact decide_eq_false (Int.not_lt.mpr (Int.le_of_eq hday))
      · exact hlater (hsame hday)
  | neither hover hdue hcount' hstays =>
    have hlooked : (appendEvent (run.log.wrote written) call).looked = false := by
      simp [appendEvent, hover, hdue]
    have hsince : sinceLast AppendEvent.looked run'.trace =
        sinceLast AppendEvent.looked run.trace + 1 := by
      rw [htrace, sinceLast_snoc, hlooked, if_neg Bool.false_ne_true]
    -- the file is not over the size, so `rollsize_` is not negative
    have hroll : ¬rollsize < 0 := by
      intro hneg
      rw [LogFile.overSize_eq rfl, decide_eq_false_iff_not] at hover
      have hsize : (run.log.wrote written).rollsize_ = rollsize := h.rollsize_eq
      omega
    have hcounted := h.counted.resolve_right hroll
    have hunder : increment run.log.count_ < run.log.checkEveryN_ :=
      Int.not_le.mp (of_decide_eq_false hdue)
    have hwrote : run'.log.count_ = increment run.log.count_ := hcount'
    rw [h.checkEveryN_eq] at hunder
    refine h.stays hsome hsetup hstays htimes htrace (fun hyes => ?_) (by omega) (.inl (by omega))
    rw [hlooked] at hyes
    exact absurd hyes Bool.false_ne_true

end PeriodInv

/-! ## §4 The first value of the count -/

/-- `++count_` does not overflow. -/
def CountFits (run : LogRun) (_ : AppendCall) : Prop := run.log.count_ ≠ 2 ^ 31 - 1

/-- An append of nothing, in the first second. -/
def emptyAppend : AppendCall := ⟨[], .acceptAll, 1, 1⟩

/-- A run of `k` empty appends that have not looked. -/
structure QuietRun (rollsize checkEveryN junk : Int) (k : ℕ) (run : LogRun) : Prop where
  rollsize_eq : run.log.rollsize_ = rollsize
  checkEveryN_eq : run.log.checkEveryN_ = checkEveryN
  count : run.log.count_ = junk + k
  clock : run.clock = 1
  file : ∃ file, run.log.file_ = some file ∧ file.writtenBytes_ = 0
  length : run.trace.length = k
  quiet : ∀ event ∈ run.trace, event.looked = false

/-- An append of nothing leaves the counter as it is. -/
theorem FileUtil.append_nil {file written : FileUtil} {calls : List WriteCall}
    (hcall : file.append .acceptAll [] = some (written, calls)) :
    written.writtenBytes_ = file.writtenBytes_ := by
  obtain ⟨file₁, calls₁, hcall₁, -, hcounter⟩ := file.append_ends .acceptAll []
  rw [hcall, Option.some.injEq, Prod.mk.injEq] at hcall₁
  rw [hcall₁.1, hcounter]
  rfl

/-- While the count that started below zero is less than `checkEveryN_`, an append that writes
    nothing does not look. -/
theorem QuietRun.not_looked {k : ℕ} (h : QuietRun rollsize checkEveryN junk k run)
    (hroll : 0 ≤ rollsize) (hjunk : junk < 0) (hk : (k : Int) < checkEveryN)
    (hnext : increment run.log.count_ = run.log.count_ + 1) {written : FileUtil}
    (hwritten : written.writtenBytes_ = 0) :
    (run.log.wrote written).overSize = false ∧ (run.log.wrote written).checkDue = false := by
  have hcount := h.count
  constructor
  · rw [LogFile.overSize_eq rfl, hwritten, decide_eq_false_iff_not]
    have hsize : (run.log.wrote written).rollsize_ = rollsize := h.rollsize_eq
    omega
  · refine decide_eq_false ?_
    have hlimit : (run.log.wrote written).checkEveryN_ = checkEveryN := h.checkEveryN_eq
    have hwrote : (run.log.wrote written).count_ = increment run.log.count_ := rfl
    omega

/-- So an empty append makes the quiet run longer. -/
theorem QuietRun.step (timebuf : Int → List Byte) {k : ℕ}
    (h : QuietRun rollsize checkEveryN junk k run) (hroll : 0 ≤ rollsize) (hjunk : junk < 0)
    (hk : (k : Int) < checkEveryN) (hN : checkEveryN < 2 ^ 31) :
    ∃ run', (logFileMachine timebuf).enabled run emptyAppend = true ∧ CountFits run emptyAppend ∧
      (logFileMachine timebuf).step run emptyAppend = some run' ∧
      QuietRun rollsize checkEveryN junk (k + 1) run' := by
  obtain ⟨file, hfile, hbytes⟩ := h.file
  obtain ⟨written, calls, run', hcall, hstep, hsetup, hchecked, hclock, htrace⟩ :=
    logFileMachine_step timebuf hfile emptyAppend
  have hcount := h.count
  have hfits : CountFits run emptyAppend := by
    unfold CountFits
    omega
  have hnext : increment run.log.count_ = run.log.count_ + 1 := if_neg hfits
  have hwritten : written.writtenBytes_ = 0 := (FileUtil.append_nil hcall).trans hbytes
  obtain ⟨hover, hdue⟩ := h.not_looked hroll hjunk hk hnext hwritten
  refine ⟨run', ?_, hfits, hstep, ?_⟩
  · refine decide_eq_true ⟨?_, Int.le_refl _⟩
    rw [h.clock]
    exact Int.le_refl _
  · cases hchecked with
    | overSize hyes => exact absurd (hover.symm.trans hyes) Bool.false_ne_true
    | period _ hyes => exact absurd (hdue.symm.trans hyes) Bool.false_ne_true
    | neither _ _ hcount' hstays =>
      obtain ⟨file', hfile', hsame⟩ := hstays.file
      exact {
        rollsize_eq := hsetup.rollsize.trans h.rollsize_eq
        checkEveryN_eq := hsetup.checkEveryN.trans h.checkEveryN_eq
        count := by
          have hwrote : run'.log.count_ = increment run.log.count_ := hcount'
          push_cast
          omega
        clock := hclock
        file := ⟨file', hfile', hsame.writtenBytes.trans hwritten⟩
        length := by rw [htrace, List.length_append, h.length, List.length_singleton]
        quiet := by
          rw [htrace]
          intro event hevent
          rcases List.mem_append.mp hevent with hold | hnew
          · exact h.quiet event hold
          · rw [List.mem_singleton.mp hnew]
            simp [appendEvent, hover, hdue] }

/-- From a count below zero there is a run of `checkEveryN_` appends that do not look. -/
theorem exists_quietRun (timebuf : Int → List Byte) (basename : List Byte) (flushInterval : Int)
    (hroll : 0 ≤ rollsize) (hjunk : junk < 0) (hN : checkEveryN < 2 ^ 31) (k : ℕ)
    (hk : (k : Int) ≤ checkEveryN) :
    ∃ calls run, (logFileMachine timebuf).ReachesAlong CountFits
        (.new timebuf basename rollsize flushInterval checkEveryN junk 1) calls run ∧
      QuietRun rollsize checkEveryN junk k run := by
  induction k with
  | zero =>
    refine ⟨[], _, .refl, ?_⟩
    unfold LogRun.new
    rw [LogFile.new_spec timebuf basename rollsize flushInterval checkEveryN junk (by decide)]
    exact {
      rollsize_eq := rfl
      checkEveryN_eq := rfl
      count := (Int.add_zero junk).symm
      clock := rfl
      file := ⟨_, rfl, rfl⟩
      length := rfl
      quiet := fun _ hevent => absurd hevent List.not_mem_nil }
  | succ k ih =>
    obtain ⟨calls, run, hrun, hquiet⟩ := ih (by omega)
    obtain ⟨run', he, hfits, hs, hquiet'⟩ := hquiet.step timebuf hroll hjunk (by omega) hN
    exact ⟨calls ++ [emptyAppend], run', hrun.snoc he hfits hs, hquiet'⟩

/-- **The day is looked at in time exactly if `count_` does not start below zero**, or no file is
    ever under the size: then among any `checkEveryN_` appends of any run one finds the file over
    the size or looks at the day, and no file gets more than `checkEveryN_` late appends. -/
theorem period_checked_iff (timebuf : Int → List Byte) (basename : List Byte)
    (rollsize flushInterval junk : Int) {checkEveryN : Int} (hpos : 1 ≤ checkEveryN)
    (hN : checkEveryN < 2 ^ 31) :
    (∀ start calls run, (logFileMachine timebuf).ReachesAlong CountFits
        (.new timebuf basename rollsize flushInterval checkEveryN junk start) calls run →
      PeriodChecked checkEveryN.toNat run.trace) ↔ 0 ≤ junk ∨ rollsize < 0 := by
  constructor
  · intro hall
    by_contra hnot
    rw [not_or, Int.not_le, Int.not_lt] at hnot
    have hlength : (checkEveryN.toNat : Int) = checkEveryN := Int.toNat_of_nonneg (by omega)
    obtain ⟨calls, run, hrun, hquiet⟩ := exists_quietRun timebuf basename flushInterval hnot.2
      hnot.1 hN checkEveryN.toNat (Int.le_of_eq hlength)
    -- the trace of the run is a window
    obtain ⟨event, hevent, hlooked⟩ := (hall 1 calls run hrun).windows run.trace
      (List.infix_refl _) hquiet.length
    rw [hquiet.quiet event hevent] at hlooked
    exact Bool.false_ne_true hlooked
  · intro hjunk start calls run hrun
    have hinv : PeriodInv rollsize checkEveryN run := by
      refine Machine.invariant_reaches_along (PeriodInv.init hpos hjunk) ?_ hrun
      exact fun t call u ht he hfits hs => ht.step hpos he hfits hs
    exact hinv.checked

/-- Three appends: the last one is in the next day. -/
def nextDayCalls : List AppendCall :=
  [⟨[1], .acceptAll, 1700000000, 1700000000⟩, ⟨[2], .acceptAll, 1700000000, 1700000000⟩,
    ⟨[3], .acceptAll, 1700086400, 1700086400⟩]

/-- With a count that starts at zero the third append is the first of a new count. -/
theorem zeroCount_checked :
    ∃ run, (logFileMachine fun _ => []).Reaches (.new (fun _ => []) [] 1000 3 2 0 1700000000)
        nextDayCalls run ∧
      run.trace.map AppendEvent.looked = [false, true, false] ∧ PeriodChecked 2 run.trace := by
  have hrun : ((logFileMachine fun _ => []).runAlong (fun run _ => run.log.count_ != 2 ^ 31 - 1)
      (.new (fun _ => []) [] 1000 3 2 0 1700000000) nextDayCalls).map
      (fun run => run.trace.map AppendEvent.looked) = some [false, true, false] := by
    decide +kernel
  obtain ⟨run, hrun, hlooked⟩ := Option.map_eq_some_iff.mp hrun
  have hreach := (Machine.reachesAlong_of_runAlong hrun).mono (D := CountFits)
    fun u _ hfits => bne_iff_ne.mp hfits
  have hpos : (1 : Int) ≤ 2 := by decide
  have hchecked := (period_checked_iff (fun _ => []) [] 1000 3 0 hpos (by decide)).mpr
    (.inl (Int.le_refl 0)) 1700000000 nextDayCalls run hreach
  exact ⟨run, hreach.reaches, hlooked, hchecked⟩

/-- With a count that starts at −2 and `checkEveryN_` 1, an append of the next day neither finds the
    file over the size nor looks at the day, and its file is not rolled. -/
theorem negativeCount_not_checked :
    ∃ run, (logFileMachine fun _ => []).Reaches (.new (fun _ => []) [] 1000 3 1 (-2) 1700000000)
        [⟨[1], .acceptAll, 1700086400, 1700086400⟩] run ∧
      lateOn run.trace 0 = 1 ∧ run.log.closed = [] ∧ ¬PeriodChecked 1 run.trace := by
  have hrun : ((logFileMachine fun _ => []).run (.new (fun _ => []) [] 1000 3 1 (-2) 1700000000)
      [⟨[1], .acceptAll, 1700086400, 1700086400⟩]).map (fun run => (run.trace, run.log.closed)) =
      some ([⟨[1], 0, true, false⟩], []) := by
    decide +kernel
  obtain ⟨run, hrun, hresult⟩ := Option.map_eq_some_iff.mp hrun
  rw [Prod.mk.injEq] at hresult
  refine ⟨run, Machine.reaches_of_run hrun, ?_, hresult.2, fun hchecked => ?_⟩
  · rw [hresult.1]
    rfl
  · have hwindow := hchecked.windows run.trace (List.infix_refl _)
    rw [hresult.1] at hwindow
    obtain ⟨event, hevent, hlooked⟩ := hwindow rfl
    rw [List.mem_singleton.mp hevent] at hlooked
    exact Bool.false_ne_true hlooked

end RainWebServer.Log
