import Mathlib.Data.List.Nodup
import RainWebServer.Lib.Machine
import RainWebServer.Log.FileUtil
import RainWebServer.Log.LogStream

/-!
# LogFile

Embeds `src/log/LogFile.cc`: a `LogFile` appends to its current file and rolls to a new one when
the file is over `rollsize_`, or when a day has passed. Days are looked at only in every
`checkEveryN_`-th append. `rollFile` reads the clock again and refuses to roll twice in a second,
because the name of a file is made of the second.

A run is a sequence of appends under the lock, with the readings of the clock as parameters.

## Main results

- `LogFile.appendInlock_spec` : what an append does
- `logFile_partitions` : the files hold what was appended, in order and without a split, and a file
  that stays over the size was opened in the current second
-/

namespace RainWebServer.Log

open RainWebServer.Lib

/-! ## §1 The log -/

/-- `kRollPerSeconds_`. -/
def kRollPerSeconds_ : Int := 60 * 60 * 24

/-- The start of the day of `now`; the division is that of C. -/
def periodOf (now : Int) : Int := now.tdiv kRollPerSeconds_ * kRollPerSeconds_

/-- `++` on an `int`, which wraps around at its largest value. -/
def increment (count : Int) : Int := if count = 2 ^ 31 - 1 then -2 ^ 31 else count + 1

/-- The members of `LogFile`, and the files that it has closed, in the order in which they were
    opened. -/
structure LogFile where
  basename_ : List Byte
  rollsize_ : Int
  flushInterval_ : Int
  checkEveryN_ : Int
  count_ : Int
  startOfPeriod_ : Int
  lastRoll_ : Int
  lastFlush_ : Int
  file_ : Option FileUtil
  closed : List FileUtil

section Model

-- the text that `localtime_r` and `strftime` make of a second
variable (timebuf : Int → List Byte)

/-- `getLogFileName`, for the second that it reads. -/
def getLogFileName (basename : List Byte) (now : Int) : List Byte :=
  basename ++ timebuf now ++ chars ['.', 'l', 'o', 'g']

namespace LogFile

/-- `rollFile`; `now` is what `getLogFileName` reads. -/
def rollFile (log : LogFile) (now : Int) : LogFile × Bool :=
  let filename := getLogFileName timebuf log.basename_ now
  let start := periodOf now
  if now > log.lastRoll_ then
    ({ log with
      lastFlush_ := now
      lastRoll_ := now
      startOfPeriod_ := start
      file_ := some (.new filename now)
      closed := log.closed ++ log.file_.toList }, true)
  else (log, false)

/-- The constructor. It does not set `count_`, which is `junk`. -/
def new (basename : List Byte) (rollsize flushInterval checkEveryN junk now : Int) : LogFile :=
  (rollFile timebuf ⟨basename, rollsize, flushInterval, checkEveryN, junk, 0, 0, 0, none, []⟩ now).1

/-- The log whose file has been written. -/
def wrote (log : LogFile) (written : FileUtil) : LogFile :=
  { log with file_ := some written, count_ := increment log.count_ }

/-- The part of `appendInlock` before the checks; a null `file_` is a fault. -/
def write (log : LogFile) (fwrite : Fwrite) (data : List Byte) : Option LogFile := do
  let file ← log.file_
  let (written, _) ← file.append fwrite data
  some (log.wrote written)

/-- Is the file over `rollsize_`? -/
def overSize (log : LogFile) : Bool :=
  log.file_.any fun file => decide ((file.writtenBytes_ : Int) > log.rollsize_)

/-- Has `count_` reached `checkEveryN_`? -/
def checkDue (log : LogFile) : Bool := decide (log.count_ ≥ log.checkEveryN_)

/-- The first check of `appendInlock`; `rollNow` is read only if it calls `rollFile`. -/
def rollWhenDue (log : LogFile) (now rollNow : Int) : LogFile :=
  if log.overSize then (log.rollFile timebuf rollNow).1
  else if log.checkDue then
    let log := { log with count_ := 0 }
    let thisPeriod := periodOf now
    if thisPeriod ≠ log.startOfPeriod_ then (log.rollFile timebuf rollNow).1 else log
  else log

/-- The second check of `appendInlock`. -/
def flushWhenDue (log : LogFile) (now : Int) : LogFile :=
  if now - log.lastFlush_ > log.flushInterval_ then
    { log with lastFlush_ := now, file_ := log.file_.map FileUtil.flush }
  else log

/-- `appendInlock`. -/
def appendInlock (log : LogFile) (fwrite : Fwrite) (data : List Byte) (now rollNow : Int) :
    Option LogFile := do
  let log ← log.write fwrite data
  some ((log.rollWhenDue timebuf now rollNow).flushWhenDue now)

/-- All files, in the order in which they were opened. -/
def files (log : LogFile) : List FileUtil := log.closed ++ log.file_.toList

end LogFile

/-! ## §2 Runs -/

/-- An append: its data, what the stream does, and the two readings of the clock. -/
structure AppendCall where
  data : List Byte
  fwrite : Fwrite
  now : Int
  rollNow : Int

/-- An append that has returned: how many files had been closed when it wrote to its file, whether
    its time is in a later day than `startOfPeriod_`, and whether it found the file over the size or
    looked at the day. -/
structure AppendEvent where
  data : List Byte
  file : ℕ
  late : Bool
  looked : Bool
  deriving DecidableEq, Repr

/-- A log, the last reading of the clock, and the appends so far. -/
structure LogRun where
  log : LogFile
  clock : Int
  trace : List AppendEvent

/-- The event of an append, from the log before the checks. -/
def appendEvent (written : LogFile) (call : AppendCall) : AppendEvent where
  data := call.data
  file := written.closed.length
  late := decide (periodOf call.now > written.startOfPeriod_)
  looked := written.overSize || written.checkDue

/-- Appends under a clock that does not go back. -/
def logFileMachine : Machine LogRun AppendCall where
  enabled run call := decide (run.clock ≤ call.now ∧ call.now ≤ call.rollNow)
  step run call := do
    let written ← run.log.write call.fwrite call.data
    let log ← run.log.appendInlock timebuf call.fwrite call.data call.now call.rollNow
    some ⟨log, call.rollNow, run.trace ++ [appendEvent written call]⟩

/-- A log that is constructed at the time `now`. -/
def LogRun.new (basename : List Byte) (rollsize flushInterval checkEveryN junk now : Int) :
    LogRun :=
  ⟨.new timebuf basename rollsize flushInterval checkEveryN junk now, now, []⟩

end Model

/-! ## §3 One append -/

variable {timebuf : Int → List Byte}

namespace LogFile

/-- The append leaves the log with the file that it has written. -/
structure Stays (log : LogFile) (written : FileUtil) (log' : LogFile) : Prop where
  file : ∃ file, log'.file_ = some file ∧ file.Same written
  closed : log'.closed = log.closed
  lastRoll : log'.lastRoll_ = log.lastRoll_
  startOfPeriod : log'.startOfPeriod_ = log.startOfPeriod_

/-- The append closes the file that it has written and leaves the log with a new one. -/
structure Rolls (timebuf : Int → List Byte) (log : LogFile) (written : FileUtil) (rollNow : Int)
    (log' : LogFile) : Prop where
  later : log.lastRoll_ < rollNow
  file : ∃ file, log'.file_ = some file ∧
    file.Same (.new (getLogFileName timebuf log.basename_ rollNow) rollNow)
  closed : log'.closed = log.closed ++ [written]
  lastRoll : log'.lastRoll_ = rollNow
  startOfPeriod : log'.startOfPeriod_ = periodOf rollNow

/-- What the constructor sets and no append changes. -/
structure SameSetup (log log' : LogFile) : Prop where
  basename : log'.basename_ = log.basename_
  rollsize : log'.rollsize_ = log.rollsize_
  checkEveryN : log'.checkEveryN_ = log.checkEveryN_

variable {log log' : LogFile} {written : FileUtil} {now rollNow : Int}

/-- A flush changes neither the file nor its position. -/
theorem flushWhenDue_spec (log : LogFile) (now : Int) :
    log.SameSetup (log.flushWhenDue now) ∧ (log.flushWhenDue now).count_ = log.count_ ∧
      (log.flushWhenDue now).closed = log.closed ∧
      (log.flushWhenDue now).lastRoll_ = log.lastRoll_ ∧
      (log.flushWhenDue now).startOfPeriod_ = log.startOfPeriod_ ∧
      ∀ file, log.file_ = some file →
        ∃ file', (log.flushWhenDue now).file_ = some file' ∧ file'.Same file := by
  unfold flushWhenDue
  split
  · refine ⟨⟨rfl, rfl, rfl⟩, rfl, rfl, rfl, rfl, fun file hfile => ?_⟩
    exact ⟨file.flush, by rw [hfile]; rfl, file.same_flush⟩
  · exact ⟨⟨rfl, rfl, rfl⟩, rfl, rfl, rfl, rfl, fun file hfile => ⟨file, hfile, .refl file⟩⟩

/-- `rollFile` opens a new file, unless the second is that of the last one. -/
theorem rollFile_spec (timebuf : Int → List Byte) (hfile : log.file_ = some written)
    (rollNow : Int) :
    log.SameSetup (log.rollFile timebuf rollNow).1 ∧
      (log.rollFile timebuf rollNow).1.count_ = log.count_ ∧
      (log.Rolls timebuf written rollNow (log.rollFile timebuf rollNow).1 ∨
        rollNow ≤ log.lastRoll_ ∧ log.Stays written (log.rollFile timebuf rollNow).1) := by
  unfold rollFile
  dsimp only
  split
  · rename_i hlater
    refine ⟨⟨rfl, rfl, rfl⟩, rfl, .inl ⟨hlater, ⟨_, rfl, .refl _⟩, ?_, rfl, rfl⟩⟩
    rw [hfile]
    rfl
  · rename_i hearly
    refine ⟨⟨rfl, rfl, rfl⟩, rfl, .inr ⟨Int.not_lt.mp hearly, ?_⟩⟩
    exact ⟨⟨written, hfile, .refl written⟩, rfl, rfl, rfl⟩

/-- What the first check of an append does, by what it finds: the file is over the size, the day is
    looked at, or neither. `log` is the log behind the write. -/
inductive Checked (timebuf : Int → List Byte) (log : LogFile) (written : FileUtil)
    (now rollNow : Int) (log' : LogFile) : Prop where
  | overSize (hover : log.overSize = true) (hcount : log'.count_ = log.count_)
      (hroll : log.Rolls timebuf written rollNow log' ∨
        rollNow ≤ log.lastRoll_ ∧ log.Stays written log')
  | period (hover : log.overSize = false) (hdue : log.checkDue = true) (hcount : log'.count_ = 0)
      (hroll : log.Rolls timebuf written rollNow log' ∨
        (periodOf now ≠ log.startOfPeriod_ → rollNow ≤ log.lastRoll_) ∧ log.Stays written log')
  | neither (hover : log.overSize = false) (hdue : log.checkDue = false)
      (hcount : log'.count_ = log.count_) (hstays : log.Stays written log')

/-- The first check. -/
theorem rollWhenDue_spec (timebuf : Int → List Byte) (hfile : log.file_ = some written)
    (now rollNow : Int) :
    log.SameSetup (log.rollWhenDue timebuf now rollNow) ∧
      log.Checked timebuf written now rollNow (log.rollWhenDue timebuf now rollNow) := by
  unfold rollWhenDue
  cases hover : log.overSize with
  | true =>
    obtain ⟨hsetup, hcount, hroll⟩ := rollFile_spec timebuf hfile rollNow
    exact ⟨hsetup, .overSize hover hcount hroll⟩
  | false =>
    cases hdue : log.checkDue with
    | false =>
      refine ⟨⟨rfl, rfl, rfl⟩, .neither hover hdue rfl ?_⟩
      exact ⟨⟨written, hfile, .refl written⟩, rfl, rfl, rfl⟩
    | true =>
      -- the count starts again, whether the log rolls or not
      have hfile' : ({ log with count_ := 0 } : LogFile).file_ = some written := hfile
      obtain ⟨hsetup, hcount, hroll⟩ := rollFile_spec timebuf hfile' rollNow
      simp only [Bool.false_eq_true, if_false, if_true]
      split
      · refine ⟨⟨hsetup.basename, hsetup.rollsize, hsetup.checkEveryN⟩,
          .period hover hdue hcount ?_⟩
        rcases hroll with hrolls | ⟨hearly, hstays⟩
        · left
          exact ⟨hrolls.later, hrolls.file, hrolls.closed, hrolls.lastRoll, hrolls.startOfPeriod⟩
        · right
          refine ⟨fun _ => hearly, ?_⟩
          exact ⟨hstays.file, hstays.closed, hstays.lastRoll, hstays.startOfPeriod⟩
      · rename_i hsame
        refine ⟨⟨rfl, rfl, rfl⟩, .period hover hdue rfl (.inr ⟨fun h => absurd h hsame, ?_⟩)⟩
        exact ⟨⟨written, hfile, .refl written⟩, rfl, rfl, rfl⟩

theorem SameSetup.trans {log₁ log₂ log₃ : LogFile} (h : log₁.SameSetup log₂)
    (h' : log₂.SameSetup log₃) : log₁.SameSetup log₃ :=
  ⟨h'.basename.trans h.basename, h'.rollsize.trans h.rollsize,
    h'.checkEveryN.trans h.checkEveryN⟩

theorem Stays.flush (h : log.Stays written log') (now : Int) :
    log.Stays written (log'.flushWhenDue now) := by
  obtain ⟨-, -, hclosed, hlast, hstart, hflush⟩ := log'.flushWhenDue_spec now
  obtain ⟨file, hfile, hsame⟩ := h.file
  obtain ⟨flushed, hflushed, hsame'⟩ := hflush file hfile
  exact ⟨⟨flushed, hflushed, hsame'.trans hsame⟩, hclosed.trans h.closed, hlast.trans h.lastRoll,
    hstart.trans h.startOfPeriod⟩

theorem Rolls.flush (h : log.Rolls timebuf written rollNow log') (now : Int) :
    log.Rolls timebuf written rollNow (log'.flushWhenDue now) := by
  obtain ⟨-, -, hclosed, hlast, hstart, hflush⟩ := log'.flushWhenDue_spec now
  obtain ⟨file, hfile, hsame⟩ := h.file
  obtain ⟨flushed, hflushed, hsame'⟩ := hflush file hfile
  exact ⟨h.later, ⟨flushed, hflushed, hsame'.trans hsame⟩, hclosed.trans h.closed,
    hlast.trans h.lastRoll, hstart.trans h.startOfPeriod⟩

theorem Checked.flush (h : log.Checked timebuf written now rollNow log') (time : Int) :
    log.Checked timebuf written now rollNow (log'.flushWhenDue time) := by
  obtain ⟨-, hflush, -⟩ := log'.flushWhenDue_spec time
  cases h with
  | overSize hover hcount hroll =>
    refine .overSize hover (hflush.trans hcount) ?_
    exact hroll.imp (·.flush time) fun ⟨hearly, hstays⟩ => ⟨hearly, hstays.flush time⟩
  | period hover hdue hcount hroll =>
    refine .period hover hdue (hflush.trans hcount) ?_
    exact hroll.imp (·.flush time) fun ⟨hearly, hstays⟩ => ⟨hearly, hstays.flush time⟩
  | neither hover hdue hcount hstays =>
    exact .neither hover hdue (hflush.trans hcount) (hstays.flush time)

/-- **What an append does.** It writes to the current file and counts, and it does not fail. -/
theorem appendInlock_spec (timebuf : Int → List Byte) {file : FileUtil}
    (hfile : log.file_ = some file) (fwrite : Fwrite) (data : List Byte) (now rollNow : Int) :
    ∃ written calls log', file.append fwrite data = some (written, calls) ∧
      log.write fwrite data = some (log.wrote written) ∧
      log.appendInlock timebuf fwrite data now rollNow = some log' ∧ log.SameSetup log' ∧
      (log.wrote written).Checked timebuf written now rollNow log' := by
  -- the write does not fail, whatever the stream accepts
  obtain ⟨written, calls, hcall, -⟩ := file.append_ends fwrite data
  have hwrite : log.write fwrite data = some (log.wrote written) := by
    simp [write, hfile, hcall]
  have hwritten : (log.wrote written).file_ = some written := rfl
  obtain ⟨hsetup, hchecked⟩ := rollWhenDue_spec timebuf hwritten now rollNow
  have hflush := (((log.wrote written).rollWhenDue timebuf now rollNow).flushWhenDue_spec now).1
  refine ⟨written, calls, _, hcall, hwrite, ?_, ?_, hchecked.flush now⟩
  · rw [appendInlock, hwrite]
    rfl
  · have hwrote : log.SameSetup (log.wrote written) := ⟨rfl, rfl, rfl⟩
    exact hwrote.trans (hsetup.trans hflush)

end LogFile

/-- **One append of a run.** -/
theorem logFileMachine_step (timebuf : Int → List Byte) {run : LogRun} {file : FileUtil}
    (hfile : run.log.file_ = some file) (call : AppendCall) :
    ∃ written calls run', file.append call.fwrite call.data = some (written, calls) ∧
      (logFileMachine timebuf).step run call = some run' ∧ run.log.SameSetup run'.log ∧
      (run.log.wrote written).Checked timebuf written call.now call.rollNow run'.log ∧
      run'.clock = call.rollNow ∧
      run'.trace = run.trace ++ [appendEvent (run.log.wrote written) call] := by
  obtain ⟨written, calls, log', hcall, hwrite, happend, hsetup, hchecked⟩ :=
    LogFile.appendInlock_spec timebuf hfile call.fwrite call.data call.now call.rollNow
  refine ⟨written, calls, ⟨log', call.rollNow, _⟩, hcall, ?_, hsetup, hchecked, rfl, rfl⟩
  simp [logFileMachine, hwrite, happend]

/-! ## §4 The files -/

/-- The stream accepts all bytes. -/
def Fwrite.AcceptsAll (fwrite : Fwrite) : Prop := ∀ k len, fwrite.accepts k len = len

/-- The data of the appends so far. -/
def LogRun.appended (run : LogRun) : List (List Byte) := run.trace.map AppendEvent.data

/-- The file with the data behind its content. -/
structure FileUtil.Extends (file : FileUtil) (data : List Byte) (written : FileUtil) : Prop where
  file_name : written.file_name = file.file_name
  opened : written.opened = file.opened
  content : written.content = file.content ++ data

theorem FileUtil.append_all {fwrite : Fwrite} (h : fwrite.AcceptsAll) {file written : FileUtil}
    {data : List Byte} {calls : List WriteCall}
    (hcall : file.append fwrite data = some (written, calls)) : file.Extends data written := by
  obtain ⟨file₁, calls₁, hcall₁, htaken, -⟩ := file.append_ends fwrite data
  rw [hcall, Option.some.injEq, Prod.mk.injEq] at hcall₁
  obtain ⟨rfl, rfl⟩ := hcall₁
  obtain ⟨hname, hopened, -, hcontent, -⟩ := append_spec hcall
  refine ⟨hname, hopened, ?_⟩
  rw [hcontent, htaken, h, List.take_length]

/-- The files of a run: their names and when they were opened, the groups of appends that they hold,
    and when the current file may be over the size. -/
structure FilesInv (timebuf : Int → List Byte) (basename : List Byte) (rollsize start : Int)
    (run : LogRun) : Prop where
  basename_eq : run.log.basename_ = basename
  rollsize_eq : run.log.rollsize_ = rollsize
  names : run.log.files.map FileUtil.file_name =
    (run.log.files.map FileUtil.opened).map (getLogFileName timebuf basename)
  sorted : (run.log.files.map FileUtil.opened).Pairwise (· < ·)
  opened : ∀ time ∈ run.log.files.map FileUtil.opened, start ≤ time ∧ time ≤ run.log.lastRoll_
  start_le : start ≤ run.log.lastRoll_
  clock : run.log.lastRoll_ ≤ run.clock
  current : ∃ file, run.log.file_ = some file ∧ file.opened = run.log.lastRoll_ ∧
    ((file.writtenBytes_ : Int) > rollsize → file.opened = run.clock)
  contents : ∃ (parts : List (List (List Byte))) (last : List (List Byte)),
    run.log.files.map FileUtil.content = parts.map List.flatten ++ [last.flatten] ∧
      parts.flatten ++ last = run.appended

namespace LogFile

variable {log log' : LogFile} {file written : FileUtil}

theorem files_eq (hfile : log.file_ = some file) : log.files = log.closed ++ [file] := by
  rw [files, hfile]
  rfl

/-- The last content is that of the current file. -/
theorem contents_split (hfile : log.file_ = some file) {parts : List (List Byte)}
    {last : List Byte} (h : log.files.map FileUtil.content = parts ++ [last]) :
    log.closed.map FileUtil.content = parts ∧ file.content = last := by
  rw [files_eq hfile, List.map_append] at h
  obtain ⟨hclosed, hcurrent⟩ := List.append_inj' h rfl
  exact ⟨hclosed, List.singleton_inj.mp hcurrent⟩

/-- The files behind an append that stays. -/
theorem Stays.files (hfile : log.file_ = some file) {data : List Byte}
    (hextends : file.Extends data written) (hstays : (log.wrote written).Stays written log') :
    log'.files.map FileUtil.opened = log.files.map FileUtil.opened ∧
      log'.files.map FileUtil.file_name = log.files.map FileUtil.file_name ∧
      log'.files.map FileUtil.content =
        log.closed.map FileUtil.content ++ [file.content ++ data] := by
  obtain ⟨file', hfile', hsame⟩ := hstays.file
  have hclosed : log'.closed = log.closed := hstays.closed
  rw [files_eq hfile, files_eq hfile', hclosed]
  simp [hsame.opened, hsame.file_name, hsame.content, hextends.opened, hextends.file_name,
    hextends.content]

/-- The files behind an append that rolls: the last one is new. -/
theorem Rolls.files {timebuf : Int → List Byte} {rollNow : Int} (hfile : log.file_ = some file)
    {data : List Byte} (hextends : file.Extends data written)
    (hrolls : (log.wrote written).Rolls timebuf written rollNow log') :
    log'.files.map FileUtil.opened = log.files.map FileUtil.opened ++ [rollNow] ∧
      log'.files.map FileUtil.file_name =
        log.files.map FileUtil.file_name ++ [getLogFileName timebuf log.basename_ rollNow] ∧
      log'.files.map FileUtil.content =
        log.closed.map FileUtil.content ++ [file.content ++ data] ++ [[]] := by
  obtain ⟨file', hfile', hsame⟩ := hrolls.file
  have hclosed : log'.closed = log.closed ++ [written] := hrolls.closed
  rw [files_eq hfile, files_eq hfile', hclosed]
  simp [hsame.opened, hsame.file_name, hsame.content, hextends.opened, hextends.file_name,
    hextends.content, FileUtil.new, wrote]

theorem overSize_eq (hfile : log.file_ = some file) :
    log.overSize = decide ((file.writtenBytes_ : Int) > log.rollsize_) := by
  rw [overSize, hfile]
  rfl

/-- A log that is constructed at a positive time has one file. -/
theorem new_spec (timebuf : Int → List Byte) (basename : List Byte)
    (rollsize flushInterval checkEveryN junk : Int) {now : Int} (hnow : 0 < now) :
    LogFile.new timebuf basename rollsize flushInterval checkEveryN junk now =
      ⟨basename, rollsize, flushInterval, checkEveryN, junk, periodOf now, now, now,
        some (.new (getLogFileName timebuf basename now) now), []⟩ := by
  unfold LogFile.new rollFile
  exact congrArg Prod.fst (if_pos hnow)

end LogFile

variable {basename : List Byte} {rollsize flushInterval checkEveryN junk start : Int} {run : LogRun}

theorem FilesInv.init (hroll : 0 ≤ rollsize) (hstart : 0 < start) :
    FilesInv timebuf basename rollsize start
      (.new timebuf basename rollsize flushInterval checkEveryN junk start) := by
  unfold LogRun.new
  rw [LogFile.new_spec timebuf basename rollsize flushInterval checkEveryN junk hstart]
  exact {
    basename_eq := rfl
    rollsize_eq := rfl
    names := rfl
    sorted := List.pairwise_singleton _ _
    opened := fun time htime => by
      rw [List.mem_singleton.mp htime]
      exact ⟨Int.le_refl _, Int.le_refl _⟩
    start_le := Int.le_refl _
    clock := Int.le_refl _
    current := ⟨_, rfl, rfl, fun hover => absurd hover (Int.not_lt.mpr hroll)⟩
    contents := ⟨[], [], rfl, rfl⟩ }

/-- An append that leaves the log with its file: only the last content grows. -/
theorem FilesInv.stays (h : FilesInv timebuf basename rollsize start run) {run' : LogRun}
    {file written : FileUtil} {data : List Byte} (hfile : run.log.file_ = some file)
    (hextends : file.Extends data written)
    (hsetup : run.log.SameSetup run'.log) (hstays : (run.log.wrote written).Stays written run'.log)
    (hclock : run.clock ≤ run'.clock) (happended : run'.appended = run.appended ++ [data])
    (hover : (written.writtenBytes_ : Int) > rollsize → run.log.lastRoll_ = run'.clock) :
    FilesInv timebuf basename rollsize start run' := by
  obtain ⟨hopened, hnames, hcontents⟩ := hstays.files hfile hextends
  obtain ⟨file', hfile', hsame⟩ := hstays.file
  have hlast : run'.log.lastRoll_ = run.log.lastRoll_ := hstays.lastRoll
  obtain ⟨parts, last, hparts, hflat⟩ := h.contents
  obtain ⟨hclosed, hcurrent⟩ := LogFile.contents_split hfile hparts
  have hopened' : file'.opened = run'.log.lastRoll_ := by
    obtain ⟨current, hcurrent, hcurrentOpened, -⟩ := h.current
    rw [hfile, Option.some.injEq] at hcurrent
    rw [hsame.opened, hextends.opened, hcurrent, hcurrentOpened, hlast]
  exact {
    basename_eq := hsetup.basename.trans h.basename_eq
    rollsize_eq := hsetup.rollsize.trans h.rollsize_eq
    names := by
      rw [hopened, hnames]
      exact h.names
    sorted := hopened ▸ h.sorted
    opened := by
      rw [hopened, hlast]
      exact h.opened
    start_le := hlast ▸ h.start_le
    clock := by
      rw [hlast]
      exact Int.le_trans h.clock hclock
    current := by
      refine ⟨file', hfile', hopened', fun hbytes => ?_⟩
      rw [hsame.writtenBytes] at hbytes
      rw [hopened', hlast]
      exact hover hbytes
    contents := by
      -- the data joins the last group
      refine ⟨parts, last ++ [data], ?_, ?_⟩
      · rw [hcontents, hclosed, hcurrent]
        simp
      · rw [happended, ← hflat, List.append_assoc] }

/-- An append that closes its file: the new file is empty, and later than all others. -/
theorem FilesInv.rolls (h : FilesInv timebuf basename rollsize start run) (hroll : 0 ≤ rollsize)
    {run' : LogRun} {file written : FileUtil} {data : List Byte}
    (hfile : run.log.file_ = some file) (hextends : file.Extends data written)
    (hsetup : run.log.SameSetup run'.log)
    (hrolls : (run.log.wrote written).Rolls timebuf written run'.clock run'.log)
    (happended : run'.appended = run.appended ++ [data]) :
    FilesInv timebuf basename rollsize start run' := by
  obtain ⟨hopened, hnames, hcontents⟩ := hrolls.files hfile hextends
  obtain ⟨file', hfile', hsame⟩ := hrolls.file
  have hlater : run.log.lastRoll_ < run'.clock := hrolls.later
  have hstart : start ≤ run'.clock := Int.le_of_lt (Int.lt_of_le_of_lt h.start_le hlater)
  obtain ⟨parts, last, hparts, hflat⟩ := h.contents
  obtain ⟨hclosed, hcurrent⟩ := LogFile.contents_split hfile hparts
  exact {
    basename_eq := hsetup.basename.trans h.basename_eq
    rollsize_eq := hsetup.rollsize.trans h.rollsize_eq
    names := by
      rw [hopened, hnames, List.map_append, h.names, h.basename_eq]
      rfl
    sorted := by
      rw [hopened]
      refine List.pairwise_append.mpr ⟨h.sorted, List.pairwise_singleton _ _, ?_⟩
      intro time htime last hlast
      rw [List.mem_singleton.mp hlast]
      exact Int.lt_of_le_of_lt (h.opened time htime).2 hlater
    opened := by
      rw [hopened, hrolls.lastRoll]
      intro time htime
      rcases List.mem_append.mp htime with hold | hnew
      · obtain ⟨hfirst, hlast⟩ := h.opened time hold
        omega
      · rw [List.mem_singleton.mp hnew]
        exact ⟨hstart, Int.le_refl _⟩
    start_le := hrolls.lastRoll ▸ hstart
    clock := by
      rw [hrolls.lastRoll]
    current := by
      refine ⟨file', hfile', ?_, fun hbytes => ?_⟩
      · rw [hsame.opened, hrolls.lastRoll]
        rfl
      · rw [hsame.writtenBytes] at hbytes
        exact absurd hbytes (Int.not_lt.mpr hroll)
    contents := by
      -- the last group is complete, and a new one starts
      refine ⟨parts ++ [last ++ [data]], [], ?_, ?_⟩
      · rw [hcontents, hclosed, hcurrent]
        simp
      · rw [happended, ← hflat]
        simp }

/-- An append whose bytes are all accepted keeps the files of a run. -/
theorem FilesInv.step (hroll : 0 ≤ rollsize) (h : FilesInv timebuf basename rollsize start run)
    {call : AppendCall} {run' : LogRun} (he : (logFileMachine timebuf).enabled run call = true)
    (haccepts : call.fwrite.AcceptsAll) (hs : (logFileMachine timebuf).step run call = some run') :
    FilesInv timebuf basename rollsize start run' := by
  obtain ⟨file, hfile, -, -⟩ := h.current
  obtain ⟨written, calls, run₁, hcall, hstep, hsetup, hchecked, hclock, htrace⟩ :=
    logFileMachine_step timebuf hfile call
  rw [hs, Option.some.injEq] at hstep
  subst hstep
  have hextends := FileUtil.append_all haccepts hcall
  have htimes : run.clock ≤ call.now ∧ call.now ≤ call.rollNow := of_decide_eq_true he
  have hlater : run.clock ≤ run'.clock := hclock ▸ Int.le_trans htimes.1 htimes.2
  have happended : run'.appended = run.appended ++ [call.data] := by
    rw [LogRun.appended, htrace, List.map_append]
    rfl
  -- the file is over the size exactly if the first check has found it so
  have hsize : (run.log.wrote written).overSize =
      decide ((written.writtenBytes_ : Int) > rollsize) := by
    rw [LogFile.overSize_eq rfl, ← h.rollsize_eq]
    rfl
  have hunder (hover : (run.log.wrote written).overSize = false)
      (hbytes : (written.writtenBytes_ : Int) > rollsize) : run.log.lastRoll_ = run'.clock := by
    rw [hsize, decide_eq_false_iff_not] at hover
    exact absurd hbytes hover
  rw [← hclock] at hchecked
  cases hchecked with
  | overSize hover hcount hroll' =>
    rcases hroll' with hrolls | ⟨hearly, hstays⟩
    · exact h.rolls hroll hfile hextends hsetup hrolls happended
    · -- a refused roll: the second is that of the last roll
      refine h.stays hfile hextends hsetup hstays hlater happended fun _ => ?_
      exact Int.le_antisymm (Int.le_trans h.clock hlater) hearly
  | period hover hdue hcount hroll' =>
    rcases hroll' with hrolls | ⟨-, hstays⟩
    · exact h.rolls hroll hfile hextends hsetup hrolls happended
    · exact h.stays hfile hextends hsetup hstays hlater happended (hunder hover)
  | neither hover hdue hcount hstays =>
    exact h.stays hfile hextends hsetup hstays hlater happended (hunder hover)

/-- The appends of a run are its calls. -/
theorem LogRun.appended_eq {first : LogRun} {calls : List AppendCall}
    (h : (logFileMachine timebuf).Reaches first calls run) :
    run.appended = first.appended ++ calls.map AppendCall.data := by
  induction h with
  | refl => rw [List.map_nil, List.append_nil]
  | @snoc calls t u call hrun he hs ih =>
    obtain ⟨written, -, hstep⟩ := Option.bind_eq_some_iff.mp hs
    obtain ⟨log, -, hu⟩ := Option.bind_eq_some_iff.mp hstep
    rw [Option.some.injEq] at hu
    rw [← hu, List.map_append, ← List.append_assoc, ← ih]
    simp [appended, appendEvent]

/-- **The files hold what was appended.** On a stream that accepts all bytes, under a clock that
    does not go back, with names that differ between seconds: the contents of the files are the
    appended data in order, each append in one file; no file is opened twice; a file that stays over
    `rollsize_` was opened in the current second; and no append fails. -/
theorem logFile_partitions (hroll : 0 ≤ rollsize) (hstart : 0 < start) {calls : List AppendCall}
    (h : (logFileMachine timebuf).Reaches
      (.new timebuf basename rollsize flushInterval checkEveryN junk start) calls run)
    (haccepts : ∀ call ∈ calls, call.fwrite.AcceptsAll)
    (hinj : ∀ s t, start ≤ s → s ≤ run.clock → start ≤ t → t ≤ run.clock →
      getLogFileName timebuf basename s = getLogFileName timebuf basename t → s = t) :
    (∃ parts : List (List (List Byte)), parts.flatten = calls.map AppendCall.data ∧
      run.log.files.map FileUtil.content = parts.map List.flatten) ∧
    (run.log.files.map FileUtil.file_name).Nodup ∧
    (∀ file, run.log.file_ = some file → (file.writtenBytes_ : Int) > rollsize →
      file.opened = run.clock) ∧
    (logFileMachine timebuf).Safe run := by
  -- the invariant of the steps holds along the run
  have hinv : FilesInv timebuf basename rollsize start run := by
    refine Machine.invariant_reaches_along (FilesInv.init hroll hstart) ?_ (h.along haccepts)
    exact fun t call u ht he haccept hs => ht.step hroll he haccept hs
  obtain ⟨current, hcurrent, -, hover⟩ := hinv.current
  refine ⟨?_, ?_, ?_, ?_⟩
  · obtain ⟨parts, last, hparts, hflat⟩ := hinv.contents
    refine ⟨parts ++ [last], ?_, ?_⟩
    · rw [List.flatten_append, List.flatten_singleton, hflat, LogRun.appended_eq h]
      rfl
    · rw [hparts, List.map_append]
      rfl
  · -- the seconds are distinct, and all of them are readings of the clock
    rw [hinv.names]
    refine List.Nodup.map_on (fun time htime time' htime' heq => ?_)
      (hinv.sorted.imp fun hlt => Int.ne_of_lt hlt)
    obtain ⟨hfirst, hlast⟩ := hinv.opened time htime
    obtain ⟨hfirst', hlast'⟩ := hinv.opened time' htime'
    exact hinj time time' hfirst (Int.le_trans hlast hinv.clock) hfirst'
      (Int.le_trans hlast' hinv.clock) heq
  · intro file hfile
    rw [hcurrent, Option.some.injEq] at hfile
    rw [← hfile]
    exact hover
  · intro call _
    obtain ⟨-, -, run', -, hstep, -⟩ := logFileMachine_step timebuf hcurrent call
    rw [hstep]
    exact Option.some_ne_none run'

/-- The text of a second between 22:13:00 and 22:13:59 on 14 November 2023 (UTC). -/
def november (now : Int) : List Byte :=
  chars ['.', '2', '0', '2', '3', '1', '1', '1', '4', '-', '2', '2', '1', '3'] ++
    (padded 10 2 (now - 1699999980).toNat).map digitChar

/-- Two appends that go over three bytes: the first one finds the second of the last roll. -/
def rolledCalls : List AppendCall :=
  [⟨chars ['h', 'e', 'l', 'l', 'o'], .acceptAll, 1700000000, 1700000000⟩,
    ⟨chars ['x'], .acceptAll, 1700000000, 1700000001⟩,
    ⟨chars ['a', 'b'], .acceptAll, 1700000001, 1700000001⟩]

/-- They are in the first of two files. -/
theorem rolledRun_partitions :
    ∃ run, (logFileMachine november).Reaches
        (.new november (chars ['l', 'o', 'g']) 3 3 1024 0 1700000000) rolledCalls run ∧
      run.log.files.length = 2 ∧ (run.log.files.map FileUtil.file_name).Nodup ∧
      ∃ parts : List (List (List Byte)), parts.flatten = rolledCalls.map AppendCall.data ∧
        run.log.files.map FileUtil.content = parts.map List.flatten := by
  have hrun : ((logFileMachine november).run
      (.new november (chars ['l', 'o', 'g']) 3 3 1024 0 1700000000) rolledCalls).map
      (fun run => (run.log.files.length, run.clock)) = some (2, 1700000001) := by
    decide +kernel
  obtain ⟨run, hreach, hresult⟩ := Option.map_eq_some_iff.mp hrun
  rw [Prod.mk.injEq] at hresult
  have hreach := Machine.reaches_of_run hreach
  have haccepts : ∀ call ∈ rolledCalls, call.fwrite.AcceptsAll := by
    intro call hcall
    simp only [rolledCalls, List.mem_cons, List.not_mem_nil, or_false] at hcall
    rcases hcall with rfl | rfl | rfl <;> exact fun _ _ => rfl
  -- the clock reads two seconds, and their names differ
  have hinj : ∀ s t, 1700000000 ≤ s → s ≤ run.clock → 1700000000 ≤ t → t ≤ run.clock →
      getLogFileName november (chars ['l', 'o', 'g']) s =
        getLogFileName november (chars ['l', 'o', 'g']) t → s = t := by
    rw [hresult.2]
    intro s t hs hs' ht ht' heq
    obtain rfl | rfl : s = 1700000000 ∨ s = 1700000001 := by omega
    all_goals obtain rfl | rfl : t = 1700000000 ∨ t = 1700000001 := by omega
    · rfl
    · exact absurd heq (by decide)
    · exact absurd heq (by decide)
    · rfl
  obtain ⟨hparts, hnames, -, -⟩ :=
    logFile_partitions (by decide) (by decide) hreach haccepts hinj
  exact ⟨run, hreach, hresult.1, hnames, hparts⟩

end RainWebServer.Log
