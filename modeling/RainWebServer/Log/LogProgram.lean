import RainWebServer.Lib.Simulation
import RainWebServer.Log.AsyncLoggingStop
import RainWebServer.Log.LogFile
import RainWebServer.Log.LoggerRecord

/-!
# The Whole Way of a Record

Puts the parts of the log together as `src/main.cc` does: threads make records with `Logger`s,
`~Logger` passes a record to `asyncLog`, which appends it to the `AsyncLogging`, and `threadFunc`
appends the buffers to its local `LogFile output` and flushes it.

An action is one call of a front-end thread, or what the backend does between two points at which
it takes or releases a lock. The records of different threads are made at the same time.

A constructor of a `Logger` is one action, so its `localtime` has a `struct tm` to itself. In the
code that is static storage, which another thread's constructor may overwrite before it is read:
the date in a record is right only if the two do not overlap.

## Main results

- `logProgram_records_whole` : every record is whole in one file or in one buffer, in lock order,
  and it is the record that its thread would have made alone; no file is opened in vain and no
  `fwrite` is short
- `logProgram_one_iteration` : a record is in a file, and flushed, at the latest when the iteration
  is over that starts next
-/

namespace RainWebServer.Log

open RainWebServer.Lib

/-! ## §1 The program -/

/-- `LogFile::flush`; a null `file_` is a fault. -/
def LogFile.flush (log : LogFile) : Option LogFile :=
  log.file_.map fun file => { log with file_ := some file.flush }

/-- What a record is made of: what its logger finds, the arguments of the constructor, and the
    values that are streamed into it. -/
structure RecordSource where
  env : LogEnv
  filename : List Byte
  line : Int
  level : LogLevel
  values : List Operand

namespace RecordSource

/-- A logger that has got the values, made without another thread in between. -/
def build (r : RecordSource) : Option Logger :=
  (Logger.new r.env r.filename r.line r.level).bind fun l => l.streamAll r.values

/-- The record of that logger, and whether the program aborts behind it. -/
def alone (r : RecordSource) : Option (List Byte × Bool) := r.build.bind Logger.destroy

/-- The text of the record. -/
def text (r : RecordSource) : List Byte := (r.alone.map Prod.fst).getD []

end RecordSource

/-- The program: the loggers that exist, the logger behind `asyncLog`, the local variable `output`
    of `threadFunc`, the records passed to `g_output` in lock order, and how far a `FATAL` record
    has brought it. -/
structure LogProgram (T : Type) where
  loggers : T → Option (RecordSource × Logger)
  logging : AsyncLogging
  output : Option LogRun
  records : List (T × RecordSource)
  aborting : Bool
  aborted : Bool

/-- What can happen. -/
inductive ProgramAct (T : Type) where
  /-- A `LOG_` macro makes a logger, with no other constructor between its `localtime` and the use
  of the result. -/
  | construct (t : T) (env : LogEnv) (filename : List Byte) (line : Int) (level : LogLevel)
  /-- `operator<<`. -/
  | stream (t : T) (value : Operand)
  /-- `~Logger`, up to `abort` of a `FATAL` record. -/
  | destroy (t : T)
  | abort
  /-- `AsyncLogging::start`; the members that `LogFile` does not set, and the clock. -/
  | start (junk now : Int)
  /-- `AsyncLogging::stop`. -/
  | stop
  /-- `threadFunc` goes on, with the stream's answers and the clock if it appends to `output`. -/
  | backEnd (fwrite : Fwrite) (now rollNow : Int)

namespace LogProgram

variable {T : Type}

/-- Before the first record. -/
def init : LogProgram T := ⟨fun _ => none, .new, none, [], false, false⟩

section Machine

-- the text that `localtime_r` and `strftime` make of a second, and the arguments of `AsyncLogging`
variable (timebuf : Int → List Byte) (basename : List Byte) (rollSize : Int)

/-- What the next step of `threadFunc` does to `output`: it appends a buffer, flushes at the end of
    an iteration and behind the loop, and leaves it alone otherwise. -/
def threadFuncOutput (s : AsyncLogging) (run : LogRun) (fwrite : Fwrite) (now rollNow : Int) :
    Option LogRun :=
  match s.back.pc with
  | .writing i =>
    match s.back.buffersToWrite[i]? with
    | some buffer => buffer.bind fun buffer =>
        (logFileMachine timebuf).step run ⟨buffer.content, fwrite, now, rollNow⟩
    | none => run.log.flush.map fun log => { run with log := log }
  | .loopTest =>
    if s.running_ then some run else run.log.flush.map fun log => { run with log := log }
  | _ => some run

/-- The clock of `output` does not go back. -/
def clockOk (s : LogProgram T) (now rollNow : Int) : Bool :=
  s.output.any fun run => decide (run.clock ≤ now ∧ now ≤ rollNow)

/-- Which actions can be taken. -/
def enabled (s : LogProgram T) (a : ProgramAct T) : Bool :=
  !s.aborted && match a with
  | .construct t _ _ line _ => (s.loggers t).isNone && decide (IntType.int.InRange line)
  | .stream t value => (s.loggers t).isSome && value.valid
  | .destroy t => (s.loggers t).isSome
  | .abort => s.aborting
  | .start _ now => logEnabled s.logging .start && decide (0 < now)
  | .stop => true
  | .backEnd _ now rollNow => logEnabled s.logging .backEnd && s.clockOk now rollNow

variable [DecidableEq T]

def setLogger (s : LogProgram T) (t : T) (logger : Option (RecordSource × Logger)) :
    LogProgram T :=
  { s with loggers := Function.update s.loggers t logger }

/-- The effect of an action. -/
def step (s : LogProgram T) : ProgramAct T → Option (LogProgram T)
  | .construct t env filename line level => do
    let l ← Logger.new env filename line level
    some (s.setLogger t (some (⟨env, filename, line, level, []⟩, l)))
  | .stream t value => do
    let (r, l) ← s.loggers t
    let l ← l.streamAll [value]
    some (s.setLogger t (some ({ r with values := r.values ++ [value] }, l)))
  | .destroy t => do
    let (r, l) ← s.loggers t
    let (record, aborts) ← l.destroy
    let logging ← logStep s.logging (.append record)
    some { s.setLogger t none with
      logging := logging
      records := s.records ++ [(t, r)]
      aborting := s.aborting || aborts }
  | .abort => some { s with aborted := true }
  | .start junk now => do
    let logging ← logStep s.logging .start
    -- `LogFile output(basename_, rollSize_)`, with the default arguments
    some { s with
      logging := logging
      output := some (.new timebuf basename rollSize 3 1024 junk now) }
  | .stop => do
    let logging ← logStep s.logging .stop
    some { s with logging := logging }
  | .backEnd fwrite now rollNow => do
    let run ← s.output
    let run ← threadFuncOutput timebuf s.logging run fwrite now rollNow
    let logging ← logStep s.logging .backEnd
    some { s with logging := logging, output := some run }

end Machine

/-- The contents of the files, in the order in which they were opened. -/
def fileContents (s : LogProgram T) : List (List Byte) :=
  match s.output with
  | none => []
  | some run => run.log.files.map FileUtil.content

end LogProgram

/-- The program as a machine. -/
def logProgramMachine (T : Type) [DecidableEq T] (timebuf : Int → List Byte)
    (basename : List Byte) (rollSize : Int) : Machine (LogProgram T) (ProgramAct T) :=
  ⟨LogProgram.enabled, LogProgram.step timebuf basename rollSize⟩

/-! ## §2 Records -/

/-- A logger has been given what its source says, and the header is in its buffer. -/
structure Building (r : RecordSource) (l : Logger) : Prop where
  build : r.build = some l
  wf : l.stream_.buffer_.WF
  pos : 0 < l.stream_.buffer_.content.length
  line : IntType.int.InRange r.line
  suffix : l.line_ = r.line ∧ l.basename_ = .new r.filename

theorem streamAll_concat (l : Logger) (values : List Operand) (value : Operand) :
    l.streamAll (values ++ [value]) = (l.streamAll values).bind fun l => l.streamAll [value] := by
  simp only [Logger.streamAll, LogStream.shiftAll, List.foldlM_append, Option.bind_eq_bind]
  cases hvalues : values.foldlM LogStream.shiftLeft l.stream_ with
  | none => rfl
  | some s => rfl

theorem building_new (env : LogEnv) (filename : List Byte) {line : Int} (level : LogLevel)
    (hline : IntType.int.InRange line) :
    ∃ l, Logger.new env filename line level = some l ∧
      Building ⟨env, filename, line, level, []⟩ l := by
  obtain ⟨s, hnew, hwf, hcontent⟩ := Logger.new_spec env filename line level
  refine ⟨_, hnew, ?_, hwf, ?_, hline, rfl, rfl⟩
  · rw [RecordSource.build, hnew]
    rfl
  · rw [hcontent, List.length_append, length_headerText]
    omega

theorem Building.stream {r : RecordSource} {l : Logger} (h : Building r l) {value : Operand}
    (hvalid : value.valid = true) :
    ∃ l', l.streamAll [value] = some l' ∧
      Building { r with values := r.values ++ [value] } l' := by
  have hall : ∀ v ∈ [value], v.valid = true := by
    intro v hv
    rw [List.mem_singleton.mp hv]
    exact hvalid
  obtain ⟨s, hcall, hwf, hcontent⟩ := l.streamAll_spec h.wf hall
  refine ⟨_, hcall, ?_, hwf, ?_, h.line, h.suffix⟩
  · -- the values so far, and then one more
    have hbuild := h.build
    simp only [RecordSource.build] at hbuild ⊢
    obtain ⟨l₀, hnew, hvalues⟩ := Option.bind_eq_some_iff.mp hbuild
    rw [hnew, Option.bind_some, streamAll_concat, hvalues, Option.bind_some, hcall]
  · have hpos := h.pos
    rw [hcontent, List.length_append]
    omega

/-- The record of a logger is not empty and fits into a small buffer. -/
theorem Building.destroy {r : RecordSource} {l : Logger} (h : Building r l) :
    ∃ record aborts, l.destroy = some (record, aborts) ∧ r.alone = some (record, aborts) ∧
      r.text = record ∧ record ≠ [] ∧ record.length < kLargeBufferSize := by
  obtain ⟨hrange, hle⟩ := sourceFile_valid r.filename
  have hvalid : ∀ value ∈ [.charPtr (chars [' ', '-', ' ']),
      .generalTemplate l.basename_.data_ l.basename_.size_, .char (ch ':'),
      .integer .int l.line_, .char (ch '\n')], Operand.valid value = true := by
    simp only [h.suffix.1, h.suffix.2, List.forall_mem_cons, Operand.valid,
      decide_eq_true hrange, decide_eq_true hle, decide_eq_true h.line, Bool.and_self, true_and]
    exact fun _ hmem => absurd hmem List.not_mem_nil
  obtain ⟨s, hcall, hwf, hcontent⟩ := l.streamAll_spec h.wf hvalid
  have hdestroy : l.destroy = some (s.buffer_.content, decide (l.level_ = .FATAL)) := by
    rw [Logger.destroy, Logger.finish, hcall, Option.map_some]
  have halone : r.alone = some (s.buffer_.content, decide (l.level_ = .FATAL)) := by
    rw [RecordSource.alone, h.build, Option.bind_some, hdestroy]
  refine ⟨_, _, hdestroy, halone, ?_, ?_, ?_⟩
  · rw [RecordSource.text, halone]
    rfl
  · have hpos := h.pos
    refine List.ne_nil_of_length_pos ?_
    rw [hcontent, List.length_append]
    omega
  · have hsize := hwf.size_lt
    rw [FixedBuffer.length_content]
    exact Nat.lt_trans hsize (by decide)

/-! ## §3 The files -/

variable {timebuf : Int → List Byte} {basename : List Byte} {rollSize : Int}

/-- A flush changes only how much of the current file is flushed. -/
theorem FilesInv.flush {start : Int} {run : LogRun}
    (h : FilesInv timebuf basename rollSize start run) :
    ∃ log file, run.log.flush = some log ∧ log.file_ = some file ∧
      file.flushed = file.content.length ∧
      log.files.map FileUtil.content = run.log.files.map FileUtil.content ∧
      FilesInv timebuf basename rollSize start { run with log := log } := by
  obtain ⟨file, hfile, hopened, hover⟩ := h.current
  have hflush : run.log.flush = some { run.log with file_ := some file.flush } := by
    rw [LogFile.flush, hfile, Option.map_some]
  -- the lists of names, times and contents are what they were
  have hfiles : run.log.files = run.log.closed ++ [file] := LogFile.files_eq hfile
  have hfiles' : LogFile.files { run.log with file_ := some file.flush } =
      run.log.closed ++ [file.flush] := rfl
  have hsame : ∀ {α : Type} (f : FileUtil → α), f file.flush = f file →
      (LogFile.files { run.log with file_ := some file.flush }).map f = run.log.files.map f := by
    intro α f hf
    rw [hfiles, hfiles', List.map_append, List.map_append, List.map_singleton,
      List.map_singleton, hf]
  have hcontents := hsame FileUtil.content rfl
  refine ⟨_, file.flush, hflush, rfl, rfl, hcontents, ?_⟩
  exact {
    basename_eq := h.basename_eq
    rollsize_eq := h.rollsize_eq
    names := by
      rw [hsame FileUtil.file_name rfl, hsame FileUtil.opened rfl]
      exact h.names
    sorted := by
      rw [hsame FileUtil.opened rfl]
      exact h.sorted
    opened := by
      rw [hsame FileUtil.opened rfl]
      exact h.opened
    start_le := h.start_le
    clock := h.clock
    current := ⟨file.flush, rfl, hopened, hover⟩
    contents := by
      rw [hcontents]
      exact h.contents }

/-- What a step of the backend does to `output`, by where the backend is. -/
inductive BackEndMoves (s t : AsyncLogging) : Prop where
  | test (hpc : s.back.pc = .loopTest) (houtput : t.output = s.output)
      (hnext : t.back.pc = if s.running_ then .locking else .returned)
  | swap (hpc : s.back.pc = .locking ∨ s.back.pc = .waiting) (houtput : t.output = s.output)
      (hnext : t.back.pc = .waiting ∨ t.back.pc = .writing 0)
  | write (i : Nat) (buffer : LargeBuffer) (hpc : s.back.pc = .writing i)
      (hbuffer : s.back.buffersToWrite[i]? = some (some buffer))
      (houtput : t.output = s.output ++ [buffer.content]) (hnext : t.back.pc = .writing (i + 1))
  | iterate (i : Nat) (hpc : s.back.pc = .writing i) (hbuffer : s.back.buffersToWrite[i]? = none)
      (houtput : t.output = s.output) (hnext : t.back.pc = .loopTest)

theorem swapBuffers_pc (f : FrontEnd) (b : BackEnd) : (swapBuffers f b).2.pc = .writing 0 := by
  unfold swapBuffers
  split <;> rfl

/-- **A step of the backend**, when its thread runs. -/
theorem backEnd_moves {s : AsyncLogging} (h : LogInv s)
    (he : logEnabled s .backEnd = true) :
    ∃ t, backEndStep s = some t ∧ LogInv t ∧ t.lines = s.lines ∧ BackEndMoves s t := by
  obtain ⟨t, hstep, hinv⟩ := logInv_backEnd h
  obtain ⟨hstarted, hrunning⟩ : s.back.pc ≠ .notStarted ∧ s.back.pc ≠ .returned := by
    simpa [logEnabled] using he
  refine ⟨t, hstep, hinv, ?_⟩
  unfold backEndStep at hstep
  cases hpc : s.back.pc with
  | notStarted => exact absurd hpc hstarted
  | returned => exact absurd hpc hrunning
  | loopTest =>
    rw [hpc] at hstep
    cases hstep
    exact ⟨rfl, .test hpc rfl rfl⟩
  | locking =>
    rw [hpc] at hstep
    simp only at hstep
    split at hstep
    · cases hstep
      exact ⟨rfl, .swap (.inl hpc) rfl (.inl rfl)⟩
    · cases hstep
      exact ⟨rfl, .swap (.inl hpc) rfl (.inr (swapBuffers_pc _ _))⟩
  | waiting =>
    rw [hpc] at hstep
    cases hstep
    exact ⟨rfl, .swap (.inr hpc) rfl (.inr (swapBuffers_pc _ _))⟩
  | writing i =>
    rw [hpc] at hstep
    simp only at hstep
    split at hstep
    · rename_i buffer hget
      obtain ⟨b, rfl, hstep⟩ := Option.bind_eq_some_iff.mp hstep
      cases hstep
      exact ⟨rfl, .write i b hpc hget rfl rfl⟩
    · rename_i hget
      obtain ⟨back, hrecycle, hstep⟩ := Option.bind_eq_some_iff.mp hstep
      cases hstep
      obtain ⟨nb1, nb2, hrec, -⟩ := recycle_spec hpc h.back
      rw [hrecycle, Option.some.injEq] at hrec
      exact ⟨rfl, .iterate i hpc hget rfl (by rw [hrec])⟩

/-! ## §4 The invariant -/

/-- `output` behind the constructor of `LogFile`: it has got what the backend has written, and it
    is flushed unless the backend is writing. -/
structure OutputRuns (timebuf : Int → List Byte) (basename : List Byte) (rollSize : Int)
    (s : AsyncLogging) (run : LogRun) : Prop where
  started : s.back.pc ≠ .notStarted
  files : ∃ start, FilesInv timebuf basename rollSize start run
  appended : run.appended = s.output
  flushed : (∀ i, s.back.pc ≠ .writing i) →
    ∃ file, run.log.file_ = some file ∧ file.flushed = file.content.length

/-- `output`, before and after the thread starts. -/
def OutputOk (timebuf : Int → List Byte) (basename : List Byte) (rollSize : Int)
    (s : AsyncLogging) : Option LogRun → Prop
  | none => s.back.pc = .notStarted ∧ s.output = []
  | some run => OutputRuns timebuf basename rollSize s run

/-- The invariant of the program. -/
structure ProgramInv {T : Type} (timebuf : Int → List Byte) (basename : List Byte) (rollSize : Int)
    (s : LogProgram T) : Prop where
  loggers : ∀ t r l, s.loggers t = some (r, l) → Building r l
  logging : LogInv s.logging
  lines : s.logging.lines = s.records.map fun e => e.2.text
  records : ∀ e ∈ s.records, e.2.text ≠ [] ∧ ∃ aborts, e.2.alone = some (e.2.text, aborts)
  output : OutputOk timebuf basename rollSize s.logging s.output

/-- A step of the backend keeps `output` in order, whatever it does to it. -/
theorem OutputRuns.backEnd (hroll : 0 ≤ rollSize) {s t : AsyncLogging} {run : LogRun}
    (h : OutputRuns timebuf basename rollSize s run) (hmoves : BackEndMoves s t)
    (fwrite : Fwrite) {now rollNow : Int} (hclock : run.clock ≤ now ∧ now ≤ rollNow) :
    ∃ run', LogProgram.threadFuncOutput timebuf s run fwrite now rollNow = some run' ∧
      (fwrite.AcceptsAll → OutputRuns timebuf basename rollSize t run') := by
  obtain ⟨start, hfiles⟩ := h.files
  -- a flush between two iterations, or behind the last one
  have hflush : t.output = s.output → t.back.pc ≠ .notStarted →
      ∃ run', (run.log.flush.map fun log => { run with log := log }) = some run' ∧
        OutputRuns timebuf basename rollSize t run' := by
    intro houtput hstarted
    obtain ⟨log, file, hlog, hfile, hall, -, hfiles'⟩ := hfiles.flush
    refine ⟨_, by rw [hlog, Option.map_some], hstarted, ⟨start, hfiles'⟩, ?_, fun _ => ?_⟩
    · rw [houtput]
      exact h.appended
    · exact ⟨file, hfile, hall⟩
  cases hmoves with
  | test hpc houtput hnext =>
    cases hrun : s.running_ with
    | true =>
      rw [hrun, if_pos rfl] at hnext
      refine ⟨run, by simp [LogProgram.threadFuncOutput, hpc, hrun], fun _ => ?_⟩
      refine ⟨by simp [hnext], h.files, ?_, fun _ => h.flushed (by simp [hpc])⟩
      rw [houtput]
      exact h.appended
    | false =>
      rw [hrun] at hnext
      obtain ⟨run', hcall, hruns⟩ := hflush houtput (by simp [hnext])
      exact ⟨run', by simpa [LogProgram.threadFuncOutput, hpc, hrun] using hcall, fun _ => hruns⟩
  | swap hpc houtput hnext =>
    refine ⟨run, ?_, fun _ => ⟨?_, h.files, ?_, fun _ => h.flushed ?_⟩⟩
    · rcases hpc with hpc | hpc <;> simp [LogProgram.threadFuncOutput, hpc]
    · rcases hnext with hnext | hnext <;> simp [hnext]
    · rw [houtput]
      exact h.appended
    · rcases hpc with hpc | hpc <;> simp [hpc]
  | write i buffer hpc hbuffer houtput hnext =>
    obtain ⟨file, hfile, -, -⟩ := hfiles.current
    have he : (logFileMachine timebuf).enabled run ⟨buffer.content, fwrite, now, rollNow⟩ = true :=
      decide_eq_true hclock
    obtain ⟨written, calls, run', -, hstep, -, -, -, htrace⟩ :=
      logFileMachine_step timebuf hfile ⟨buffer.content, fwrite, now, rollNow⟩
    refine ⟨run', ?_, fun haccepts => ⟨by simp [hnext],
      ⟨start, hfiles.step hroll he haccepts hstep⟩, ?_, fun hnot => absurd hnext (hnot _)⟩⟩
    · simp only [LogProgram.threadFuncOutput, hpc, hbuffer, Option.bind_some]
      exact hstep
    · rw [LogRun.appended, htrace, List.map_append, houtput, ← h.appended]
      rfl
  | iterate i hpc hbuffer houtput hnext =>
    obtain ⟨run', hcall, hruns⟩ := hflush houtput (by simp [hnext])
    exact ⟨run', by simpa only [LogProgram.threadFuncOutput, hpc, hbuffer] using hcall,
      fun _ => hruns⟩

/-- The streams of the action accept all bytes. -/
def ProgramAct.AcceptsAll {T : Type} : ProgramAct T → Prop
  | .backEnd fwrite _ _ => fwrite.AcceptsAll
  | _ => True

section Steps

variable {T : Type} [DecidableEq T] {s : LogProgram T}

/-- What an action finds. -/
def LogProgram.Finds (s : LogProgram T) : ProgramAct T → Prop
  | .construct _ _ _ line _ => IntType.int.InRange line
  | .stream t value => (∃ r l, s.loggers t = some (r, l)) ∧ value.valid = true
  | .destroy t => ∃ r l, s.loggers t = some (r, l)
  | .start _ now => s.logging.back.pc = .notStarted ∧ 0 < now
  | .backEnd _ now rollNow => logEnabled s.logging .backEnd = true ∧
      ∃ run, s.output = some run ∧ run.clock ≤ now ∧ now ≤ rollNow
  | _ => True

omit [DecidableEq T] in
theorem LogProgram.finds_of_enabled {a : ProgramAct T} (he : s.enabled a = true) :
    s.Finds a := by
  simp only [LogProgram.enabled, Bool.and_eq_true] at he
  obtain ⟨-, he⟩ := he
  cases a with
  | construct t env filename line level =>
    simp only [Bool.and_eq_true, decide_eq_true_eq] at he
    exact he.2
  | stream t value =>
    simp only [Bool.and_eq_true] at he
    obtain ⟨⟨r, l⟩, hlogger⟩ := Option.isSome_iff_exists.mp he.1
    exact ⟨⟨r, l, hlogger⟩, he.2⟩
  | destroy t =>
    obtain ⟨⟨r, l⟩, hlogger⟩ := Option.isSome_iff_exists.mp he
    exact ⟨r, l, hlogger⟩
  | start junk now =>
    simpa [logEnabled, LogProgram.Finds] using he
  | backEnd fwrite now rollNow =>
    simp only [Bool.and_eq_true] at he
    obtain ⟨run, hrun, hclock⟩ := Option.any_eq_true _ _ |>.mp he.2
    exact ⟨he.1, run, hrun, of_decide_eq_true hclock⟩
  | abort => trivial
  | stop => trivial

/-- A logger more or less. -/
theorem ProgramInv.setLogger (h : ProgramInv timebuf basename rollSize s) (t : T)
    {logger : Option (RecordSource × Logger)}
    (hlogger : ∀ r l, logger = some (r, l) → Building r l) :
    ProgramInv timebuf basename rollSize (s.setLogger t logger) := by
  refine ⟨?_, h.logging, h.lines, h.records, h.output⟩
  intro u r l hu
  simp only [LogProgram.setLogger, Function.update_apply] at hu
  split at hu
  · exact hlogger r l hu
  · exact h.loggers u r l hu

/-- An append of the front end is no concern of the backend. -/
theorem OutputOk.of_append {s t : AsyncLogging} {output : Option LogRun}
    (h : OutputOk timebuf basename rollSize s output) {line : List Byte}
    (hs : logStep s (.append line) = some t) : OutputOk timebuf basename rollSize t output := by
  obtain ⟨front, -, ht⟩ := Option.bind_eq_some_iff.mp hs
  cases ht
  cases output with
  | none => exact h
  | some run => exact ⟨h.started, h.files, h.appended, h.flushed⟩

/-- **Every action keeps the invariant**, if the stream accepts what it is given, and none
    faults. -/
theorem ProgramInv.step (hroll : 0 ≤ rollSize) (h : ProgramInv timebuf basename rollSize s)
    {a : ProgramAct T} (he : s.enabled a = true) :
    ∃ s', s.step timebuf basename rollSize a = some s' ∧
      (a.AcceptsAll → ProgramInv timebuf basename rollSize s') := by
  have hfinds := LogProgram.finds_of_enabled he
  cases a with
  | construct t env filename line level =>
    obtain ⟨l, hnew, hbuilding⟩ := building_new env filename level hfinds
    refine ⟨s.setLogger t (some (⟨env, filename, line, level, []⟩, l)), by
      simp only [LogProgram.step, hnew, Option.bind_eq_bind, Option.bind_some],
      fun _ => h.setLogger t fun r l' heq => ?_⟩
    cases heq
    exact hbuilding
  | stream t value =>
    obtain ⟨⟨r, l, hlogger⟩, hvalid⟩ := hfinds
    obtain ⟨l', hcall, hbuilding⟩ := (h.loggers t r l hlogger).stream hvalid
    refine ⟨s.setLogger t (some ({ r with values := r.values ++ [value] }, l')), by
      simp only [LogProgram.step, hlogger, hcall, Option.bind_eq_bind, Option.bind_some],
      fun _ => h.setLogger t fun r' l'' heq => ?_⟩
    cases heq
    exact hbuilding
  | destroy t =>
    obtain ⟨r, l, hlogger⟩ := hfinds
    obtain ⟨record, aborts, hdestroy, halone, htext, hne, hlength⟩ :=
      (h.loggers t r l hlogger).destroy
    obtain ⟨logging, happend, hlogging⟩ := logInv_append h.logging hlength
    have hlines : logging.lines = s.logging.lines ++ [record] := by
      obtain ⟨front, -, ht⟩ := Option.bind_eq_some_iff.mp happend
      cases ht
      rfl
    refine ⟨{ s.setLogger t none with
        logging := logging
        records := s.records ++ [(t, r)]
        aborting := s.aborting || aborts }, by
      simp only [LogProgram.step, hlogger, hdestroy, happend, Option.bind_eq_bind,
        Option.bind_some], fun _ => ?_⟩
    have hloggers := (h.setLogger t (nofun : ∀ r l, none = some (r, l) → Building r l)).loggers
    refine ⟨hloggers, hlogging, ?_, ?_, h.output.of_append happend⟩
    · show logging.lines = (s.records ++ [(t, r)]).map _
      rw [hlines, h.lines, List.map_append, List.map_singleton, htext]
    · intro e hmem
      rcases List.mem_append.mp hmem with hmem | hmem
      · exact h.records e hmem
      · rw [List.mem_singleton.mp hmem]
        exact ⟨htext ▸ hne, aborts, htext ▸ halone⟩
  | abort => exact ⟨_, rfl, fun _ => ⟨h.loggers, h.logging, h.lines, h.records, h.output⟩⟩
  | start junk now =>
    obtain ⟨hpc, hnow⟩ := hfinds
    obtain ⟨logging, hstart, hlogging⟩ := logInv_invariant.step s.logging .start h.logging
      (decide_eq_true hpc)
    refine ⟨{ s with
        logging := logging
        output := some (.new timebuf basename rollSize 3 1024 junk now) }, by
      simp only [LogProgram.step, show logStep s.logging .start = some logging from hstart,
        Option.bind_eq_bind, Option.bind_some], fun _ => ?_⟩
    cases hstart
    refine ⟨h.loggers, hlogging, h.lines, h.records, by simp,
      ⟨now, FilesInv.init hroll hnow⟩, ?_, fun _ => ?_⟩
    · -- nothing was written before the thread ran
      cases houtput : s.output with
      | none =>
        have hnone := h.output
        rw [houtput] at hnone
        exact hnone.2.symm
      | some run =>
        have hruns := h.output
        rw [houtput] at hruns
        exact absurd hpc hruns.started
    · refine ⟨.new (getLogFileName timebuf basename now) now, ?_, rfl⟩
      rw [LogRun.new, LogFile.new_spec timebuf basename rollSize 3 1024 junk hnow]
  | stop =>
    obtain ⟨logging, hstop, hlogging⟩ := logInv_invariant.step s.logging .stop h.logging rfl
    cases hstop
    refine ⟨_, rfl, fun _ => ?_⟩
    refine ⟨h.loggers, hlogging, h.lines, h.records, ?_⟩
    have houtput := h.output
    show OutputOk timebuf basename rollSize _ s.output
    cases hout : s.output with
    | none =>
      rw [hout] at houtput
      exact houtput
    | some run =>
      rw [hout] at houtput
      exact ⟨houtput.started, houtput.files, houtput.appended, houtput.flushed⟩
  | backEnd fwrite now rollNow =>
    obtain ⟨hback, run, hrun, hclock⟩ := hfinds
    obtain ⟨logging, hstep, hlogging, hlines, hmoves⟩ := backEnd_moves h.logging hback
    have hruns : OutputRuns timebuf basename rollSize s.logging run := by
      have houtput := h.output
      rw [hrun] at houtput
      exact houtput
    obtain ⟨run', hcall, hruns'⟩ := hruns.backEnd hroll hmoves fwrite hclock
    refine ⟨{ s with logging := logging, output := some run' }, ?_, fun haccepts => ?_⟩
    · simp only [LogProgram.step, hrun, hcall, show logStep s.logging .backEnd = some logging
        from hstep, Option.bind_eq_bind, Option.bind_some]
    · refine ⟨h.loggers, hlogging, ?_, h.records, hruns' haccepts⟩
      show logging.lines = _
      rw [hlines, h.lines]

end Steps

theorem programInv_init {T : Type} :
    ProgramInv timebuf basename rollSize (LogProgram.init : LogProgram T) :=
  ⟨nofun, logInv_new, rfl, nofun, rfl, rfl⟩

variable {T : Type} [DecidableEq T]

theorem programInv_reaches (hroll : 0 ≤ rollSize) {s : LogProgram T} {as : List (ProgramAct T)}
    (h : (logProgramMachine T timebuf basename rollSize).Reaches .init as s)
    (haccepts : ∀ a ∈ as, a.AcceptsAll) : ProgramInv timebuf basename rollSize s := by
  induction h with
  | refl => exact programInv_init
  | @snoc as t u a _ he hs ih =>
    have hbefore := ih fun b hb => haccepts b (List.mem_append_left _ hb)
    obtain ⟨v, hv, hkeeps⟩ := hbefore.step hroll he
    have hu : t.step timebuf basename rollSize a = some u := hs
    rw [hv, Option.some.injEq] at hu
    exact hu ▸ hkeeps (haccepts a (List.mem_append_right _ (List.mem_singleton_self a)))

/-! ## §5 Whole records in the files -/

/-- What is mapped to a list of lists can be grouped as it is. -/
theorem exists_groups_of_map_eq_flatten {α β : Type} {f : α → β} {parts : List (List β)}
    {as : List α} (h : as.map f = parts.flatten) :
    ∃ groups : List (List α), groups.flatten = as ∧ groups.map (List.map f) = parts := by
  induction parts generalizing as with
  | nil =>
    rw [List.flatten_nil, List.map_eq_nil_iff] at h
    exact ⟨[], h.symm, rfl⟩
  | cons part parts ih =>
    rw [List.flatten_cons] at h
    obtain ⟨front, rest, rfl, hfront, hrest⟩ := List.map_eq_append_iff.mp h
    obtain ⟨groups, rfl, hgroups⟩ := ih hrest
    exact ⟨front :: groups, rfl, by rw [List.map_cons, hfront, hgroups]⟩

omit [DecidableEq T] in
/-- The files hold what the backend has written, call by call. -/
theorem OutputOk.contents {s : LogProgram T}
    (h : OutputOk timebuf basename rollSize s.logging s.output) :
    ∃ parts : List (List (List Byte)), s.fileContents = parts.map List.flatten ∧
      parts.flatten = s.logging.output := by
  unfold LogProgram.fileContents
  cases houtput : s.output with
  | none =>
    rw [houtput] at h
    exact ⟨[], rfl, h.2.symm⟩
  | some run =>
    rw [houtput] at h
    obtain ⟨start, hfiles⟩ := h.files
    obtain ⟨parts, last, hcontents, happended⟩ := hfiles.contents
    refine ⟨parts ++ [last], ?_, ?_⟩
    · rw [List.map_append, List.map_singleton]
      exact hcontents
    · rw [List.flatten_append, List.flatten_singleton, happended]
      exact h.appended

omit [DecidableEq T] in
/-- The records, file by file, and those that are still in buffers. -/
theorem ProgramInv.whole {s : LogProgram T} (h : ProgramInv timebuf basename rollSize s) :
    ∃ filed pending : List (List (List Byte)),
      s.fileContents = filed.map List.flatten ∧
      (unwritten s.logging).map ptrContent = pending.map List.flatten ∧
      filed.flatten ++ pending.flatten = s.records.map fun e => e.2.text := by
  obtain ⟨groups, hpieces, hlines⟩ := h.logging.whole
  obtain ⟨parts, hcontents, hparts⟩ := h.output.contents
  -- the groups of the calls, and the groups of the buffers
  obtain ⟨written, pending, rfl, hwritten, hpending⟩ := List.map_eq_append_iff.mp hpieces
  rw [← hparts] at hwritten
  obtain ⟨filed, rfl, rfl⟩ := exists_groups_of_map_eq_flatten hwritten
  refine ⟨filed.map List.flatten, pending, ?_, hpending.symm, ?_⟩
  · rw [hcontents, List.map_map, List.map_map]
    refine List.map_congr_left fun group _ => ?_
    exact List.flatten_flatten.symm
  · rw [← h.lines, ← hlines, List.flatten_append, List.flatten_flatten]

/-- **No record is torn**, if the streams accept what they are given. In every state of every run,
    whichever threads make records at the same time: each file holds whole records, and so does
    each buffer that is to be written; file by file and buffer by buffer these are the records in
    lock order; each of them is the record that its thread would have made alone; and no step
    faults. -/
theorem logProgram_records_whole (hroll : 0 ≤ rollSize) {s : LogProgram T}
    {as : List (ProgramAct T)}
    (h : (logProgramMachine T timebuf basename rollSize).Reaches .init as s)
    (haccepts : ∀ a ∈ as, a.AcceptsAll) :
    (∃ filed pending : List (List (List Byte)),
      s.fileContents = filed.map List.flatten ∧
      (unwritten s.logging).map ptrContent = pending.map List.flatten ∧
      filed.flatten ++ pending.flatten = s.records.map fun e => e.2.text) ∧
    (∀ e ∈ s.records, ∃ aborts, e.2.alone = some (e.2.text, aborts)) ∧
    (logProgramMachine T timebuf basename rollSize).Safe s := by
  have hinv := programInv_reaches hroll h haccepts
  refine ⟨hinv.whole, fun e he => (hinv.records e he).2, fun a he hfault => ?_⟩
  obtain ⟨t, ht, -⟩ := hinv.step hroll he
  rw [show s.step timebuf basename rollSize a = none from hfault] at ht
  cases ht

/-- Two threads make records at the same time; then the backend takes them. -/
def twoRecords : List (ProgramAct Bool) :=
  [.start 0 1700000000, .construct false firstSecond sourceName 7 .INFO,
    .construct true firstSecond sourceName 8 .WARN, .stream false (.char (ch 'a')),
    .stream true (.char (ch 'b')), .stream false (.char (ch 'c')), .destroy true, .destroy false]

/-- An iteration of the backend. -/
def oneIteration : List (ProgramAct Bool) :=
  List.replicate 5 (.backEnd .acceptAll 1700000001 1700000001)

theorem twoRecords_acceptsAll : ∀ a ∈ twoRecords ++ oneIteration, a.AcceptsAll := by
  intro a ha
  simp only [twoRecords, oneIteration, List.mem_append, List.mem_cons, List.not_mem_nil, or_false,
    List.mem_replicate] at ha
  rcases ha with (rfl | rfl | rfl | rfl | rfl | rfl | rfl | rfl) | ⟨-, rfl⟩
  all_goals first | exact trivial | exact fun _ _ => rfl

theorem twoRecords_records_whole :
    ∃ s, (logProgramMachine Bool november (chars ['l', 'o', 'g']) 3).Reaches .init
        (twoRecords ++ oneIteration) s ∧
      (s.records.map fun e => (e.1, e.2.line)) = [(true, 8), (false, 7)] ∧
      ∃ filed pending : List (List (List Byte)), s.fileContents = filed.map List.flatten ∧
        filed.flatten ++ pending.flatten = s.records.map fun e => e.2.text := by
  have hrun : ((logProgramMachine Bool november (chars ['l', 'o', 'g']) 3).run .init
      (twoRecords ++ oneIteration)).map (fun s => s.records.map fun e => (e.1, e.2.line)) =
      some [(true, 8), (false, 7)] := by decide +kernel
  obtain ⟨s, hs, hrecords⟩ := Option.map_eq_some_iff.mp hrun
  have hreach := Machine.reaches_of_run hs
  obtain ⟨⟨filed, pending, hfiled, -, hwhole⟩, -⟩ :=
    logProgram_records_whole (by decide) hreach twoRecords_acceptsAll
  exact ⟨s, hreach, hrecords, filed, pending, hfiled, hwhole⟩

/-! ## §6 One iteration of the backend -/

/-- The bytes `x` are on their way to the file: the next swap takes them along, or they are passed
    on. -/
def UnderWay (x : List Byte) (s : AsyncLogging) : Prop :=
  match s.back.pc with
  | .locking | .waiting => x <+: passedBytes s ++ frontBytes s.front
  | .loopTest | .writing _ => x <+: passedBytes s
  | .returned => True
  | .notStarted => False

/-- The bytes `x` are there at the start of an iteration. -/
def AtTest (x : List Byte) (s : AsyncLogging) : Prop :=
  s.back.pc = .loopTest ∧ x <+: passedBytes s ++ frontBytes s.front

/-- The first step of an iteration. -/
theorem AtTest.underWay {x : List Byte} {s t : AsyncLogging} (h : AtTest x s) (hok : PointersOk s)
    (hs : anyLineMachine.step s .backEnd = some t) : UnderWay x t := by
  obtain ⟨hpc, hx⟩ := h
  obtain ⟨-, ⟨hswap, -⟩ | ⟨hpassed, hfront, hnext⟩⟩ := backEnd_moved hok hs
  · rw [hpc] at hswap
    simp at hswap
  · rw [hpc] at hnext
    have hnext' : t.back.pc = if s.running_ then .locking else .returned := hnext
    cases hrun : s.running_ with
    | true =>
      rw [hrun, if_pos rfl] at hnext'
      simpa only [UnderWay, hnext', hpassed, hfront] using hx
    | false =>
      rw [hrun, if_neg Bool.false_ne_true] at hnext'
      simp only [UnderWay, hnext']

/-- A later step of the backend. -/
theorem UnderWay.backEnd {x : List Byte} {s t : AsyncLogging} (h : UnderWay x s)
    (hok : PointersOk s) (hs : anyLineMachine.step s .backEnd = some t) : UnderWay x t := by
  obtain ⟨-, ⟨hswap, hnext, hpassed, -⟩ | ⟨hpassed, hfront, hnext⟩⟩ := backEnd_moved hok hs
  · -- the swap takes everything along
    have hx : x <+: passedBytes s ++ frontBytes s.front := by
      rcases hswap with hswap | hswap <;> simpa only [UnderWay, hswap] using h
    simpa only [UnderWay, hnext, hpassed] using hx
  · cases hs₀ : s.back.pc with
    | loopTest =>
      have hx : x <+: passedBytes s := by simpa only [UnderWay, hs₀] using h
      exact AtTest.underWay ⟨hs₀, hx.trans (List.prefix_append _ _)⟩ hok hs
    | locking =>
      rw [hs₀] at hnext
      have hnext' : t.back.pc = .waiting := hnext
      simpa only [UnderWay, hs₀, hnext', hpassed, hfront] using h
    | waiting =>
      rw [hs₀] at hnext
      exact hnext.elim
    | writing i =>
      rw [hs₀] at hnext
      have hx : x <+: passedBytes s := by simpa only [UnderWay, hs₀] using h
      rcases hnext with hnext | hnext
      · simpa only [UnderWay, hnext, hpassed] using hx
      · simpa only [UnderWay, hnext, hpassed] using hx
    | returned =>
      rw [hs₀] at hnext
      have hnext' : t.back.pc = .returned := hnext
      simp only [UnderWay, hnext']
    | notStarted =>
      simp only [UnderWay, hs₀] at h

/-- The bytes stay where they are while the front end goes on. -/
theorem frontEnd_keeps {x : List Byte} {s t : AsyncLogging} {a : LogAct} (hok : PointersOk s)
    (ha : a ≠ .backEnd) (he : anyLineMachine.enabled s a = true)
    (hs : anyLineMachine.step s a = some t) :
    (AtTest x s → AtTest x t) ∧ (UnderWay x s → UnderWay x t) := by
  obtain ⟨-, hpassed, line, hcases⟩ := frontEnd_step hok ha he hs
  rcases hcases with ⟨-, -, -, hpc, hfront⟩ | ⟨-, hpc, -⟩ | ⟨-, rfl⟩
  · constructor
    · rintro ⟨htest, hx⟩
      refine ⟨hpc.trans htest, ?_⟩
      rw [hpassed, hfront, ← List.append_assoc]
      exact hx.trans (List.prefix_append _ _)
    · intro h
      unfold UnderWay at h ⊢
      rw [hpc, hpassed, hfront, ← List.append_assoc]
      cases hs₀ : s.back.pc with
      | locking =>
        rw [hs₀] at h
        exact h.trans (List.prefix_append _ _)
      | waiting =>
        rw [hs₀] at h
        exact h.trans (List.prefix_append _ _)
      | loopTest =>
        rw [hs₀] at h
        exact h
      | writing i =>
        rw [hs₀] at h
        exact h
      | returned => trivial
      | notStarted =>
        rw [hs₀] at h
        exact h
  · exact ⟨fun h => absurd h.1 (by simp [hpc]), fun h => by simp [UnderWay, hpc] at h⟩
  · exact ⟨id, id⟩

/-- **One iteration passes the bytes on** that are there when it starts. -/
theorem iteration_passes {x : List Byte} {s t : AsyncLogging} {as : List LogAct}
    (hok : PointersOk s) (h : AtTest x s) (hrun : anyLineMachine.Reaches s as t)
    (hmoved : LogAct.backEnd ∈ as) (ht : t.back.pc = .loopTest) : x <+: t.output.flatten := by
  -- at the test until the backend moves, under way from then on
  have hall : PointersOk t ∧ (LogAct.backEnd ∉ as ∧ AtTest x t ∨ UnderWay x t) := by
    clear hmoved ht
    induction hrun with
    | refl => exact ⟨hok, .inl ⟨List.not_mem_nil, h⟩⟩
    | @snoc as t u a _ he hs ih =>
      obtain ⟨hokt, hx⟩ := ih
      rcases Classical.em (a = .backEnd) with rfl | ha
      · obtain ⟨v, hv, hokv, -⟩ := backEnd_bytes hokt
        have hu : backEndStep t = some u := hs
        rw [hv, Option.some.injEq] at hu
        subst hu
        rcases hx with ⟨-, hx⟩ | hx
        · exact ⟨hokv, .inr (hx.underWay hokt hs)⟩
        · exact ⟨hokv, .inr (hx.backEnd hokt hs)⟩
      · obtain ⟨hoku, -⟩ := frontEnd_step hokt ha he hs
        obtain ⟨htest, hway⟩ := frontEnd_keeps (x := x) hokt ha he hs
        refine ⟨hoku, hx.imp (fun ⟨hnot, hx⟩ => ⟨?_, htest hx⟩) hway⟩
        rw [List.mem_append, not_or, List.mem_singleton]
        exact ⟨hnot, fun heq => ha heq.symm⟩
  obtain ⟨-, ⟨hnot, -⟩ | hx⟩ := hall
  · exact absurd hmoved hnot
  · simpa [UnderWay, passedBytes, ht] using hx

/-- What a step of the program is for the logger, and for the records. -/
theorem LogProgram.step_logging {s s' : LogProgram T} {a : ProgramAct T}
    (he : s.enabled a = true) (hs : s.step timebuf basename rollSize a = some s') :
    (∃ bs, anyLineMachine.Reaches s.logging bs s'.logging ∧
      ∀ fwrite now rollNow, a = .backEnd fwrite now rollNow → bs = [.backEnd]) ∧
    s.records <+: s'.records := by
  have hfinds := finds_of_enabled he
  have hone : ∀ {b v}, anyLineMachine.enabled s.logging b = true →
      anyLineMachine.step s.logging b = some v → anyLineMachine.Reaches s.logging [b] v :=
    fun hb hv => .cons hb hv .refl
  cases a with
  | construct t env filename line level =>
    obtain ⟨l, -, h⟩ := Option.bind_eq_some_iff.mp hs
    cases h
    exact ⟨⟨[], .refl, nofun⟩, List.prefix_refl _⟩
  | stream t value =>
    obtain ⟨⟨r, l⟩, -, h⟩ := Option.bind_eq_some_iff.mp hs
    obtain ⟨l', -, h⟩ := Option.bind_eq_some_iff.mp h
    cases h
    exact ⟨⟨[], .refl, nofun⟩, List.prefix_refl _⟩
  | destroy t =>
    obtain ⟨⟨r, l⟩, -, h⟩ := Option.bind_eq_some_iff.mp hs
    obtain ⟨⟨record, aborts⟩, -, h⟩ := Option.bind_eq_some_iff.mp h
    obtain ⟨logging, happend, h⟩ := Option.bind_eq_some_iff.mp h
    cases h
    exact ⟨⟨[.append record], hone rfl happend, nofun⟩, List.prefix_append _ _⟩
  | abort =>
    cases hs
    exact ⟨⟨[], .refl, nofun⟩, List.prefix_refl _⟩
  | start junk now =>
    cases hs
    exact ⟨⟨[.start], hone (decide_eq_true hfinds.1) rfl, nofun⟩, List.prefix_refl _⟩
  | stop =>
    cases hs
    exact ⟨⟨[.stop], hone rfl rfl, nofun⟩, List.prefix_refl _⟩
  | backEnd fwrite now rollNow =>
    obtain ⟨run, -, h⟩ := Option.bind_eq_some_iff.mp hs
    obtain ⟨run', -, h⟩ := Option.bind_eq_some_iff.mp h
    obtain ⟨logging, hback, h⟩ := Option.bind_eq_some_iff.mp h
    cases h
    exact ⟨⟨[.backEnd], hone hfinds.1 hback, fun _ _ _ _ => rfl⟩, List.prefix_refl _⟩

/-- The steps of the program are those of the logger, or none of its. -/
theorem logProgram_simulation (s₀ : LogProgram T) :
    (logProgramMachine T timebuf basename rollSize).Simulation anyLineMachine
      (fun s => s₀.records <+: s.records) (fun s u => s.logging = u)
      (fun a bs => ∀ fwrite now rollNow, a = .backEnd fwrite now rollNow → bs = [.backEnd]) where
  keeps := fun _ _ _ hpre he hs => hpre.trans (LogProgram.step_logging he hs).2
  matched := by
    rintro s u a s' - rfl he hs
    obtain ⟨⟨bs, hrun, hP⟩, -⟩ := LogProgram.step_logging he hs
    exact ⟨bs, s'.logging, hrun, rfl, hP⟩

/-- Of two prefixes of a list, the one with fewer bytes comes first. -/
theorem prefix_of_flatten_prefix {α : Type} {ls front rest : List (List α)}
    (hne : ∀ l ∈ ls, l ≠ []) (hls : ls <+: front ++ rest) (h : ls.flatten <+: front.flatten) :
    ls <+: front := by
  rcases List.prefix_or_prefix_of_prefix hls (List.prefix_append front rest) with hpre | hpre
  · exact hpre
  · -- what is longer would hold another byte
    obtain ⟨more, rfl⟩ := hpre
    have hle := h.length_le
    rw [List.flatten_append, List.length_append] at hle
    have hmore : more.flatten = [] := List.length_eq_zero_iff.mp (by omega)
    cases more with
    | nil =>
      rw [List.append_nil]
    | cons l more =>
      rw [List.flatten_cons, List.append_eq_nil_iff] at hmore
      exact absurd hmore.1 (hne l (by simp))

/-- **A record is in a file when an iteration is over**, if the streams accept what they are given.
    The records that were passed to `asyncLog` before an iteration of the backend starts are in the
    files, in lock order, and flushed, when `threadFunc` is at its test again, whatever the threads
    do meanwhile. -/
theorem logProgram_one_iteration (hroll : 0 ≤ rollSize) {s t : LogProgram T}
    {as bs : List (ProgramAct T)}
    (h₁ : (logProgramMachine T timebuf basename rollSize).Reaches .init as s)
    (h₂ : (logProgramMachine T timebuf basename rollSize).Reaches s bs t)
    (haccepts : ∀ a ∈ as ++ bs, a.AcceptsAll) (hs : s.logging.back.pc = .loopTest)
    (ht : t.logging.back.pc = .loopTest)
    (hmoved : ∃ fwrite now rollNow, ProgramAct.backEnd fwrite now rollNow ∈ bs) :
    (∃ filed : List (List (List Byte)), t.fileContents = filed.map List.flatten ∧
      (s.records.map fun e => e.2.text) <+: filed.flatten) ∧
    ∃ run file, t.output = some run ∧ run.log.file_ = some file ∧
      file.flushed = file.content.length := by
  have hinv := programInv_reaches hroll h₁ fun a ha => haccepts a (List.mem_append_left _ ha)
  have hinv' := programInv_reaches hroll (h₁.trans h₂) haccepts
  obtain ⟨fwrite, now, rollNow, hmem⟩ := hmoved
  -- the run of the logger alone
  obtain ⟨bss, u, hrun, hrecords, rfl, hmatches⟩ :=
    (logProgram_simulation s).reaches (List.prefix_refl _) rfl h₂
  have hback : LogAct.backEnd ∈ bss.flatten :=
    Machine.mem_flatten_of_forall₂ hmatches hmem fun bs hbs => by
      rw [hbs fwrite now rollNow rfl]
      exact List.mem_singleton_self _
  have hbytes : s.logging.lines.flatten = passedBytes s.logging ++ frontBytes s.logging.front := by
    rw [← hinv.logging.whole.flatten_eq, pieces_eq_of_not_writing (by simp [hs])]
    simp [passedBytes, hs, frontBytes]
  have hpassed : s.logging.lines.flatten <+: t.logging.output.flatten :=
    iteration_passes ⟨hinv.logging.front, hinv.logging.back⟩
      ⟨hs, by rw [hbytes]⟩ hrun hback ht
  refine ⟨?_, ?_⟩
  · obtain ⟨filed, pending, hcontents, -, hwhole⟩ := hinv'.whole
    have hpre : (s.records.map fun e => e.2.text) <+: filed.flatten ++ pending.flatten := by
      rw [hwhole]
      exact hrecords.map _
    refine ⟨filed, hcontents, prefix_of_flatten_prefix ?_ hpre ?_⟩
    · intro text htext
      obtain ⟨e, he, rfl⟩ := List.mem_map.mp htext
      exact (hinv.records e he).1
    · -- the files hold the bytes that were passed on
      obtain ⟨parts, hcontents', hparts⟩ := hinv'.output.contents
      have hfiled : filed.flatten.flatten = t.logging.output.flatten := by
        rw [List.flatten_flatten, ← hcontents, hcontents', ← List.flatten_flatten, hparts]
      rw [hfiled, ← hinv.lines]
      exact hpassed
  · have houtput := hinv'.output
    cases hout : t.output with
    | none =>
      rw [hout] at houtput
      rw [houtput.1] at ht
      cases ht
    | some run =>
      rw [hout] at houtput
      obtain ⟨file, hfile, hflushed⟩ := houtput.flushed (by simp [ht])
      exact ⟨run, file, rfl, hfile, hflushed⟩

theorem oneIteration_files_records :
    ∃ s t, (logProgramMachine Bool november (chars ['l', 'o', 'g']) 3).Reaches .init
        twoRecords s ∧
      (logProgramMachine Bool november (chars ['l', 'o', 'g']) 3).Reaches s oneIteration t ∧
      s.records.length = 2 ∧
      ∃ filed : List (List (List Byte)), t.fileContents = filed.map List.flatten ∧
        (s.records.map fun e => e.2.text) <+: filed.flatten := by
  have hrun : ((logProgramMachine Bool november (chars ['l', 'o', 'g']) 3).run .init
      twoRecords).map (fun s => (s.logging.back.pc, s.records.length,
        ((logProgramMachine Bool november (chars ['l', 'o', 'g']) 3).run s oneIteration).map
          fun t => t.logging.back.pc)) = some (.loopTest, 2, some .loopTest) := by
    decide +kernel
  obtain ⟨s, hs, hresult⟩ := Option.map_eq_some_iff.mp hrun
  rw [Prod.mk.injEq, Prod.mk.injEq] at hresult
  obtain ⟨hpc, hlength, hrun'⟩ := hresult
  obtain ⟨t, ht, hpc'⟩ := Option.map_eq_some_iff.mp hrun'
  have hreach := Machine.reaches_of_run hs
  have hreach' := Machine.reaches_of_run ht
  have hmoved : ∃ fwrite now rollNow, ProgramAct.backEnd fwrite now rollNow ∈ oneIteration :=
    ⟨_, _, _, List.mem_replicate.mpr ⟨by decide, rfl⟩⟩
  obtain ⟨hfiled, -⟩ := logProgram_one_iteration (by decide) hreach hreach' twoRecords_acceptsAll
    hpc hpc' hmoved
  exact ⟨s, t, hreach, hreach', hlength, hfiled⟩

end RainWebServer.Log
