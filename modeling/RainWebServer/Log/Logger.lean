import RainWebServer.Log.LogStream

/-!
# Logger

Embeds `include/log/Logger.h` and `src/log/Logger.cc`: a `Logger` writes a header with the time
and the level, its stream takes the values of the record, and its destructor writes the file
name and the line behind them and passes the record to `g_output`.

The time is formatted as `YYYY/MM/DD HH:MM:SS`, which has 19 characters, and the header takes 17
of them. The clock, `localtime` and `strerror_r` are parameters.

## Main results

- `formatTime_spec` : the header that `formatTime` writes
- `header_determines_time_iff` : two times have the same header if they differ in the second only
-/

namespace RainWebServer.Log

open RainWebServer.Lib

/-! ## §1 Formats -/

/-- `%wd`: the decimal text, filled up with blanks to `w` characters. -/
def formatD (w : Nat) (num : Int) : List Byte :=
  List.replicate (w - (decimal num).length) (ch ' ') ++ decimal num

/-- `%0wd`: the sign, and the digits filled up with zeros to `w` characters in all. -/
def formatZeroD (w : Nat) (num : Int) : List Byte :=
  if num < 0 then ch '-' :: (padded 10 (w - 1) num.natAbs).map digitChar
  else (padded 10 w num.natAbs).map digitChar

/-- A `char` array of `n` bytes. -/
structure CharArray (n : Nat) where
  bytes : List Byte
  length_eq : bytes.length = n

/-- `snprintf` of a text to an array: what fits before the terminating NUL is written. -/
def CharArray.snprintf {n : Nat} (array : CharArray (n + 1)) (text : List Byte) :
    CharArray (n + 1) where
  bytes := text.take n ++ 0 :: array.bytes.drop ((text.take n).length + 1)
  length_eq := by
    have hlength := array.length_eq
    rw [List.length_append, List.length_cons, List.length_drop, List.length_take]
    omega

/-- An array whose bytes are zero. -/
def CharArray.zero (n : Nat) : CharArray n := ⟨List.replicate n 0, List.length_replicate⟩

/-! ## §2 The logger -/

/-- The members of `struct tm` that are used. -/
structure Tm where
  tm_year : Int
  tm_mon : Int
  tm_mday : Int
  tm_hour : Int
  tm_min : Int
  tm_sec : Int
  deriving DecidableEq, Repr

/-- `Timestamp::kMicroSecondsPerSecond`. -/
def kMicroSecondsPerSecond : Int := 1000 * 1000

/-- The levels; `LEVEL_COUNT` is their number. -/
inductive LogLevel where
  | TRACE
  | DEBUG
  | INFO
  | WARN
  | ERROR
  | FATAL
  deriving DecidableEq, Repr

/-- `getLevelName`. -/
def getLevelName : LogLevel → List Byte
  | .TRACE => chars ['T', 'R', 'A', 'C', 'E', ' ']
  | .DEBUG => chars ['D', 'E', 'B', 'U', 'G', ' ']
  | .INFO => chars ['I', 'N', 'F', 'O', ' ', ' ']
  | .WARN => chars ['W', 'A', 'R', 'N', ' ', ' ']
  | .ERROR => chars ['E', 'R', 'R', 'O', 'R', ' ']
  | .FATAL => chars ['F', 'A', 'T', 'A', 'L', ' ']

/-- The members of `SourceFile`. -/
structure SourceFile where
  data_ : List Byte
  size_ : Int
  deriving DecidableEq, Repr

/-- The constructor: the name behind the last slash. -/
def SourceFile.new (filename : List Byte) : SourceFile :=
  let data := ((cString filename).reverse.takeWhile (fun c => c ≠ ch '/')).reverse
  ⟨data, intOfSize data.length⟩

/-- What a logger finds when it is made: the clock, the C library, and memory that is not
    initialised. -/
structure LogEnv where
  now : Int
  localtime : Int → Tm
  strerror_r : Int → List Byte
  t_timer : CharArray 64
  junk : Nat → Byte

/-- The members of `Logger::Impl` that are used. -/
structure Logger where
  stream_ : LogStream
  level_ : LogLevel
  line_ : Int
  basename_ : SourceFile

/-- The seconds of a `Timestamp`. -/
def secondsOf (now : Int) : Int := now.tdiv kMicroSecondsPerSecond

/-- The microseconds of a `Timestamp` beyond its seconds. -/
def microsecondsOf (now : Int) : Int := now.tmod kMicroSecondsPerSecond

/-- The text of `"%4d/%02d/%02d %02d:%02d:%02d"`. -/
def timeText (tm : Tm) : List Byte :=
  formatD 4 (tm.tm_year + 1900) ++ ch '/' :: formatZeroD 2 (tm.tm_mon + 1) ++
    ch '/' :: formatZeroD 2 tm.tm_mday ++ ch ' ' :: formatZeroD 2 tm.tm_hour ++
    ch ':' :: formatZeroD 2 tm.tm_min ++ ch ':' :: formatZeroD 2 tm.tm_sec

/-- The text of `"%06d "`. -/
def microText (microseconds : Int) : List Byte := formatZeroD 6 microseconds ++ [ch ' ']

/-- `formatTime`: the stream, and the thread's `t_timer`, after it. -/
def formatTime (localtime : Int → Tm) (now : Int) (timer : CharArray 64) (s : LogStream) :
    Option (LogStream × CharArray 64) :=
  let timer := timer.snprintf (timeText (localtime (secondsOf now)))
  let buf := (CharArray.zero 32).snprintf (microText (microsecondsOf now))
  (s.shiftAll [.generalTemplate timer.bytes 17, .generalTemplate buf.bytes 7]).map fun s =>
    (s, timer)

namespace Logger

/-- The constructor of `Impl`. -/
def newImpl (env : LogEnv) (level : LogLevel) (savedErrno : Int) (filename : List Byte)
    (line : Int) : Option Logger := do
  let (s, _) ← formatTime env.localtime env.now env.t_timer (.new env.junk)
  let s ← s.shiftLeft (.generalTemplate (getLevelName level) 6)
  let s ← if savedErrno ≠ 0 then
      s.shiftAll [.charPtr (env.strerror_r savedErrno),
        .charPtr (chars [' ', '(', 'e', 'r', 'r', 'n', 'o', '=']), .integer .int savedErrno,
        .charPtr (chars [')', ' '])]
    else some s
  some ⟨s, level, line, .new filename⟩

/-- The constructor. -/
def new (env : LogEnv) (filename : List Byte) (line : Int) (level : LogLevel) : Option Logger :=
  newImpl env level 0 filename line

/-- Values are streamed into `stream()`. -/
def streamAll (l : Logger) (values : List Operand) : Option Logger :=
  (l.stream_.shiftAll values).map fun s => { l with stream_ := s }

/-- `finish`. -/
def finish (l : Logger) : Option Logger :=
  l.streamAll [.charPtr (chars [' ', '-', ' ']),
    .generalTemplate l.basename_.data_ l.basename_.size_, .char (ch ':'), .integer .int l.line_,
    .char (ch '\n')]

/-- The destructor: what `g_output` gets, and whether the program aborts. -/
def destroy (l : Logger) : Option (List Byte × Bool) :=
  l.finish.map fun l => (l.stream_.buffer_.content, decide (l.level_ = .FATAL))

end Logger

/-! ## §3 Formatted numbers -/

/-- What is formatted is made of digits, blanks and the sign. -/
theorem mem_decimal {num : Int} {c : Byte} (h : c ∈ decimal num) :
    c = ch '-' ∨ ∃ d < 10, c = digitChar d := by
  rcases List.mem_append.mp h with hsign | hdigits
  · split at hsign
    · exact .inl (List.mem_singleton.mp hsign)
    · cases hsign
  · obtain ⟨d, hd, rfl⟩ := List.mem_map.mp hdigits
    exact .inr ⟨d, lt_of_mem_numeral (by decide) hd, rfl⟩

theorem mem_formatD {w : Nat} {num : Int} {c : Byte} (h : c ∈ formatD w num) :
    c = ch ' ' ∨ c = ch '-' ∨ ∃ d < 10, c = digitChar d := by
  rcases List.mem_append.mp h with hblank | htext
  · exact .inl (List.eq_of_mem_replicate hblank)
  · exact .inr (mem_decimal htext)

theorem mem_formatZeroD {w : Nat} {num : Int} {c : Byte} (h : c ∈ formatZeroD w num) :
    c = ch '-' ∨ ∃ d < 10, c = digitChar d := by
  have hdigits : ∀ v, c ∈ (padded 10 v num.natAbs).map digitChar → ∃ d < 10, c = digitChar d := by
    intro v hc
    obtain ⟨d, hd, rfl⟩ := List.mem_map.mp hc
    exact ⟨d, lt_of_mem_padded (by decide) hd, rfl⟩
  unfold formatZeroD at h
  split at h
  · rcases List.mem_cons.mp h with hsign | hc
    · exact .inl hsign
    · exact .inr (hdigits _ hc)
  · exact .inr (hdigits _ h)

/-- The width is the least number of characters. -/
theorem le_length_formatD (w : Nat) (num : Int) : w ≤ (formatD w num).length := by
  rw [formatD, List.length_append, List.length_replicate]
  omega

theorem le_length_formatZeroD (w : Nat) (num : Int) : w ≤ (formatZeroD w num).length := by
  unfold formatZeroD
  split
  · rw [List.length_cons, List.length_map, length_padded]
    omega
  · rw [List.length_map, length_padded]
    omega

/-- A year of four digits. -/
theorem formatD_year {num : Int} (h : 1000 ≤ num ∧ num ≤ 9999) :
    formatD 4 num = (numeral 10 num.natAbs).map digitChar ∧ (formatD 4 num).length = 4 := by
  have hdecimal : decimal num = (numeral 10 num.natAbs).map digitChar := by
    rw [decimal, if_neg (by omega), List.nil_append]
  have hlength : (numeral 10 num.natAbs).length = 4 := by
    have hle : (numeral 10 num.natAbs).length ≤ 4 :=
      length_numeral_le (by decide) (by decide) (by omega)
    have hlt : 3 < (numeral 10 num.natAbs).length := lt_length_numeral (by decide) (by omega)
    omega
  have hformat : formatD 4 num = (numeral 10 num.natAbs).map digitChar := by
    rw [formatD, hdecimal, List.length_map, hlength, Nat.sub_self, List.replicate_zero,
      List.nil_append]
  exact ⟨hformat, by rw [hformat, List.length_map, hlength]⟩

/-- Digits are determined by their characters. -/
theorem map_digitChar_inj {ds es : List Nat} (hds : ∀ d ∈ ds, d < 10) (hes : ∀ e ∈ es, e < 10)
    (h : ds.map digitChar = es.map digitChar) : ds = es := by
  induction ds generalizing es with
  | nil =>
    cases es with
    | nil => rfl
    | cons e es => cases h
  | cons d ds ih =>
    cases es with
    | nil => cases h
    | cons e es =>
      rw [List.map_cons, List.map_cons, List.cons.injEq] at h
      -- the first digits agree, and so do the rest
      have hhead := digitChar_inj (hds d List.mem_cons_self) (hes e List.mem_cons_self) h.1
      have htail := ih (fun d' hd' => hds d' (List.mem_cons_of_mem _ hd'))
        (fun e' he' => hes e' (List.mem_cons_of_mem _ he')) h.2
      rw [hhead, htail]

theorem map_padded_inj {w v m n : Nat}
    (h : (padded 10 w m).map digitChar = (padded 10 v n).map digitChar) : m = n :=
  padded_inj (map_digitChar_inj (fun _ hd => lt_of_mem_padded (by decide) hd)
    (fun _ hd => lt_of_mem_padded (by decide) hd) h)

/-- A year of four digits is determined by its text. -/
theorem formatD_year_inj {num num' : Int} (h : 1000 ≤ num ∧ num ≤ 9999)
    (h' : 1000 ≤ num' ∧ num' ≤ 9999) (heq : formatD 4 num = formatD 4 num') : num = num' := by
  rw [(formatD_year h).1, (formatD_year h').1] at heq
  have hdigits := map_digitChar_inj (fun _ hd => lt_of_mem_numeral (by decide) hd)
    (fun _ hd => lt_of_mem_numeral (by decide) hd) heq
  have hvalues := congrArg (valueOf 10) hdigits
  rw [valueOf_numeral, valueOf_numeral] at hvalues
  omega

/-- A number that is not negative and has at most `w` digits. -/
theorem length_formatZeroD {w : Nat} (hw : 0 < w) {num : Int} (hnum : 0 ≤ num)
    (h : num.natAbs < 10 ^ w) : (formatZeroD w num).length = w := by
  rw [formatZeroD, if_neg (by omega), List.length_map]
  exact length_padded_of_lt (by decide) hw h

theorem formatZeroD_inj {w : Nat} {num num' : Int} (hnum : 0 ≤ num) (hnum' : 0 ≤ num')
    (h : formatZeroD w num = formatZeroD w num') : num = num' := by
  rw [formatZeroD, if_neg (by omega), formatZeroD, if_neg (by omega)] at h
  have habs := map_padded_inj h
  omega

/-! ## §4 The header -/

/-- The array begins with the text, as far as it was written. -/
theorem CharArray.snprintf_take {n k : Nat} (array : CharArray (n + 1)) {text : List Byte}
    (hk : k ≤ n) (htext : k ≤ text.length) : (array.snprintf text).bytes.take k = text.take k := by
  have hle : k ≤ (text.take n).length := by
    rw [List.length_take]
    omega
  show (text.take n ++ _).take k = _
  rw [List.take_append_of_le_length hle, List.take_take, Nat.min_eq_left hk]

/-- The header of a record: 17 bytes of the time and 7 of the microseconds. -/
def headerText (localtime : Int → Tm) (now : Int) : List Byte :=
  (timeText (localtime (secondsOf now))).take 17 ++ (microText (microsecondsOf now)).take 7

theorem le_length_timeText (tm : Tm) : 19 ≤ (timeText tm).length := by
  have hyear := le_length_formatD 4 (tm.tm_year + 1900)
  have hmon := le_length_formatZeroD 2 (tm.tm_mon + 1)
  have hmday := le_length_formatZeroD 2 tm.tm_mday
  have hhour := le_length_formatZeroD 2 tm.tm_hour
  have hmin := le_length_formatZeroD 2 tm.tm_min
  have hsec := le_length_formatZeroD 2 tm.tm_sec
  simp only [timeText, List.length_append, List.length_cons]
  omega

theorem le_length_microText (microseconds : Int) : 7 ≤ (microText microseconds).length := by
  have hwidth := le_length_formatZeroD 6 microseconds
  rw [microText, List.length_append, List.length_singleton]
  omega

/-- The two operands that `formatTime` puts into the stream. -/
theorem formatTime_operands (localtime : Int → Tm) (now : Int) (timer : CharArray 64) :
    ∃ time micro, (∀ s, formatTime localtime now timer s =
        (s.shiftAll [time, micro]).map fun s =>
          (s, timer.snprintf (timeText (localtime (secondsOf now))))) ∧
      time.valid = true ∧ micro.valid = true ∧
      time.text = (timeText (localtime (secondsOf now))).take 17 ∧
      micro.text = (microText (microsecondsOf now)).take 7 ∧
      (∀ avail, time.fits avail = decide (17 < avail)) ∧
      ∀ avail, micro.fits avail = decide (7 < avail) := by
  have htime := le_length_timeText (localtime (secondsOf now))
  have hmicro := le_length_microText (microsecondsOf now)
  have htimer := (timer.snprintf (timeText (localtime (secondsOf now)))).length_eq
  have hbuf := ((CharArray.zero 32).snprintf (microText (microsecondsOf now))).length_eq
  -- the operands are the two templates with their fixed lengths
  refine ⟨_, _, fun s => rfl, ?_, ?_, ?_, ?_, fun _ => rfl, fun _ => rfl⟩
  · simp only [Operand.valid, htimer]
    decide
  · simp only [Operand.valid, hbuf]
    decide
  · exact CharArray.snprintf_take _ (by decide) (Nat.le_trans (by decide) htime)
  · exact CharArray.snprintf_take _ (by decide) hmicro

/-- **`formatTime` writes the header** to an empty stream. -/
theorem formatTime_spec (localtime : Int → Tm) (now : Int) (timer : CharArray 64) {s : LogStream}
    (h : s.buffer_.WF) (hempty : s.buffer_.content = []) :
    ∃ s' timer', formatTime localtime now timer s = some (s', timer') ∧
      s'.buffer_.WF ∧ s'.buffer_.content = headerText localtime now := by
  obtain ⟨time, micro, hformat, htime, hmicro, htimeText, hmicroText, hfits, hfits'⟩ :=
    formatTime_operands localtime now timer
  have hvalid : ∀ operand ∈ [time, micro], operand.valid = true := by simp [htime, hmicro]
  obtain ⟨s', hcall, hadds⟩ := s.shiftAll_spec h hvalid
  have havail : s.buffer_.avail = 4000 := by
    rw [LogStream.avail_eq h, hempty]
    rfl
  refine ⟨s', _, by rw [hformat, hcall, Option.map_some], hadds.wf, ?_⟩
  have hlength : time.text.length = 17 := by
    have hle := le_length_timeText (localtime (secondsOf now))
    rw [htimeText, List.length_take]
    omega
  -- both operands fit into an empty buffer
  rw [hadds.content, hempty, havail, List.nil_append,
    accepted_cons_of_fits _ (by rw [hfits]; rfl), hlength,
    accepted_cons_of_fits _ (by rw [hfits']; rfl), htimeText, hmicroText, accepted, List.append_nil]
  rfl

/-! ## §5 Times with the same header -/

/-- The year has four digits. -/
def InYears (tm : Tm) : Prop := 1000 ≤ tm.tm_year + 1900 ∧ tm.tm_year + 1900 ≤ 9999

/-- What is assumed about `localtime`: in the years that are considered it gives every second its
    own calendar fields, and these are in the usual ranges. -/
structure Calendar (localtime : Int → Tm) : Prop where
  inj : ∀ s s', InYears (localtime s) → InYears (localtime s') → localtime s = localtime s' →
    s = s'
  mon : ∀ s, InYears (localtime s) → 0 ≤ (localtime s).tm_mon ∧ (localtime s).tm_mon ≤ 11
  mday : ∀ s, InYears (localtime s) → 1 ≤ (localtime s).tm_mday ∧ (localtime s).tm_mday ≤ 31
  hour : ∀ s, InYears (localtime s) → 0 ≤ (localtime s).tm_hour ∧ (localtime s).tm_hour ≤ 23
  min : ∀ s, InYears (localtime s) → 0 ≤ (localtime s).tm_min ∧ (localtime s).tm_min ≤ 59
  sec : ∀ s, InYears (localtime s) → 0 ≤ (localtime s).tm_sec ∧ (localtime s).tm_sec ≤ 60

/-- The fields from the year to the minute agree. -/
structure SameMinute (tm tm' : Tm) : Prop where
  year : tm.tm_year = tm'.tm_year
  mon : tm.tm_mon = tm'.tm_mon
  mday : tm.tm_mday = tm'.tm_mday
  hour : tm.tm_hour = tm'.tm_hour
  min : tm.tm_min = tm'.tm_min

/-- The text before the seconds. -/
def minuteText (tm : Tm) : List Byte :=
  formatD 4 (tm.tm_year + 1900) ++ ch '/' :: formatZeroD 2 (tm.tm_mon + 1) ++
    ch '/' :: formatZeroD 2 tm.tm_mday ++ ch ' ' :: formatZeroD 2 tm.tm_hour ++
    ch ':' :: formatZeroD 2 tm.tm_min ++ [ch ':']

theorem timeText_eq (tm : Tm) : timeText tm = minuteText tm ++ formatZeroD 2 tm.tm_sec := by
  simp only [timeText, minuteText, List.append_assoc, List.cons_append, List.nil_append]

section Pairs

variable {localtime : Int → Tm} {s s' : Int}

/-- The fields of a time have two digits. -/
theorem Calendar.lengths (h : Calendar localtime) (hs : InYears (localtime s)) :
    (formatZeroD 2 ((localtime s).tm_mon + 1)).length = 2 ∧
      (formatZeroD 2 (localtime s).tm_mday).length = 2 ∧
      (formatZeroD 2 (localtime s).tm_hour).length = 2 ∧
      (formatZeroD 2 (localtime s).tm_min).length = 2 := by
  have hmon := h.mon s hs
  have hmday := h.mday s hs
  have hhour := h.hour s hs
  have hmin := h.min s hs
  refine ⟨?_, ?_, ?_, ?_⟩ <;> apply length_formatZeroD <;> omega

/-- The seconds begin behind the 17th character. -/
theorem Calendar.take_timeText (h : Calendar localtime) (hs : InYears (localtime s)) :
    (timeText (localtime s)).take 17 = minuteText (localtime s) := by
  rw [timeText_eq]
  apply List.take_left'
  obtain ⟨hmon, hmday, hhour, hmin⟩ := h.lengths hs
  -- four characters of the year, and four fields of two with their separators
  have hyear := (formatD_year hs).2
  simp only [minuteText, List.length_append, List.length_cons, List.length_nil, hyear, hmon, hmday,
    hhour, hmin]

/-- The text before the seconds determines the minute. -/
theorem Calendar.sameMinute (h : Calendar localtime) (hs : InYears (localtime s))
    (hs' : InYears (localtime s')) (heq : minuteText (localtime s) = minuteText (localtime s')) :
    SameMinute (localtime s) (localtime s') := by
  obtain ⟨lmon, lmday, lhour, lmin⟩ := h.lengths hs
  obtain ⟨lmon', lmday', lhour', lmin'⟩ := h.lengths hs'
  -- the fields have fixed widths, so they are split off from the right
  have htime := (List.append_inj' heq rfl).1
  obtain ⟨hhours, hmin⟩ := List.append_inj' htime (by simp [lmin, lmin'])
  obtain ⟨hdays, hhour⟩ := List.append_inj' hhours (by simp [lhour, lhour'])
  obtain ⟨hmonths, hmday⟩ := List.append_inj' hdays (by simp [lmday, lmday'])
  obtain ⟨hyear, hmon⟩ := List.append_inj' hmonths (by simp [lmon, lmon'])
  -- in its range each field is determined by its text
  have rmon := h.mon s hs
  have rmday := h.mday s hs
  have rhour := h.hour s hs
  have rmin := h.min s hs
  have rmon' := h.mon s' hs'
  have rmday' := h.mday s' hs'
  have rhour' := h.hour s' hs'
  have rmin' := h.min s' hs'
  refine ⟨?_, ?_, ?_, ?_, ?_⟩
  · have hsum := formatD_year_inj hs hs' hyear
    omega
  · have hsum := formatZeroD_inj (by omega) (by omega) (List.cons.inj hmon).2
    omega
  · exact formatZeroD_inj (by omega) (by omega) (List.cons.inj hmday).2
  · exact formatZeroD_inj (by omega) (by omega) (List.cons.inj hhour).2
  · exact formatZeroD_inj (by omega) (by omega) (List.cons.inj hmin).2

theorem minuteText_congr {tm tm' : Tm} (h : SameMinute tm tm') :
    minuteText tm = minuteText tm' := by
  rw [minuteText, h.year, h.mon, h.mday, h.hour, h.min]
  rfl

end Pairs

/-- A blank is no digit. -/
theorem blank_not_mem {ds : List Nat} (h : ∀ d ∈ ds, d < 10) : ch ' ' ∉ ds.map digitChar := by
  intro hmem
  obtain ⟨d, hd, heq⟩ := List.mem_map.mp hmem
  have hvalue := congrArg UInt8.toNat heq
  rw [toNat_digitChar (h d hd)] at hvalue
  change 48 + d = 32 at hvalue
  omega

/-- Seven characters of `"%06d "`: the digits, and a blank behind them if there is space. -/
theorem microText_take {m : Int} (h : m.natAbs < 10 ^ 6) :
    (microText m).take 7 =
      if m < 0 then ch '-' :: (padded 10 5 m.natAbs).map digitChar ++
        (if m.natAbs < 10 ^ 5 then [ch ' '] else [])
      else (padded 10 6 m.natAbs).map digitChar ++ [ch ' '] := by
  unfold microText formatZeroD
  split
  · split
    · -- five digits behind the sign, and the blank is the seventh character
      rename_i hshort
      have hlength : (padded 10 5 m.natAbs).length = 5 :=
        length_padded_of_lt (by decide) (by decide) hshort
      apply List.take_of_length_le
      simp [hlength]
    · -- six digits behind the sign leave no space for the blank
      rename_i hlong
      have hlt : 5 < (numeral 10 m.natAbs).length := lt_length_numeral (by decide) (by omega)
      have hle : (numeral 10 m.natAbs).length ≤ 6 := length_numeral_le (by decide) (by decide) h
      have hlength : (padded 10 5 m.natAbs).length = 6 := by
        rw [length_padded]
        omega
      rw [List.append_nil]
      apply List.take_left'
      simp [hlength]
  · have hlength : (padded 10 6 m.natAbs).length = 6 :=
      length_padded_of_lt (by decide) (by decide) h
    apply List.take_of_length_le
    simp [hlength]

/-- What follows the sign of negative microseconds determines them: there is a blank exactly if
    they have at most five digits. -/
theorem negative_micro_inj {m n : Nat}
    (h : (padded 10 5 m).map digitChar ++ (if m < 10 ^ 5 then [ch ' '] else []) =
      (padded 10 5 n).map digitChar ++ (if n < 10 ^ 5 then [ch ' '] else [])) : m = n := by
  have hblank : ∀ k, ch ' ' ∉ (padded 10 5 k).map digitChar := fun k =>
    blank_not_mem fun _ hd => lt_of_mem_padded (by decide) hd
  by_cases hm : m < 10 ^ 5
  · rw [if_pos hm] at h
    by_cases hn : n < 10 ^ 5
    · rw [if_pos hn] at h
      exact map_padded_inj (List.append_cancel_right h)
    · -- only one of the two has a blank
      rw [if_neg hn, List.append_nil] at h
      exact absurd (h ▸ List.mem_append_right _ (List.mem_singleton_self _)) (hblank n)
  · rw [if_neg hm, List.append_nil] at h
    by_cases hn : n < 10 ^ 5
    · rw [if_pos hn] at h
      exact absurd (h.symm ▸ List.mem_append_right _ (List.mem_singleton_self _)) (hblank m)
    · rw [if_neg hn, List.append_nil] at h
      exact map_padded_inj h

/-- A text that starts with a digit does not start with a sign. -/
theorem padded_ne_minus (k : Nat) (l l' : List Byte) :
    (padded 10 6 k).map digitChar ++ l ≠ ch '-' :: l' := by
  intro hl
  cases hlist : padded 10 6 k with
  | nil =>
    have hle := length_padded 10 6 k
    rw [hlist, List.length_nil] at hle
    omega
  | cons d ds =>
    have hd : d < 10 := lt_of_mem_padded (by decide) (hlist ▸ List.mem_cons_self)
    rw [hlist, List.map_cons, List.cons_append, List.cons.injEq] at hl
    exact digitChar_ne_minus hd hl.1

/-- **Seven characters determine the microseconds**, also negative ones. -/
theorem microText_take_inj {m m' : Int} (h : m.natAbs < 10 ^ 6) (h' : m'.natAbs < 10 ^ 6)
    (heq : (microText m).take 7 = (microText m').take 7) : m = m' := by
  rw [microText_take h, microText_take h'] at heq
  by_cases hneg : m < 0
  · rw [if_pos hneg] at heq
    by_cases hneg' : m' < 0
    · rw [if_pos hneg', List.cons_append, List.cons_append, List.cons.injEq] at heq
      have habs := negative_micro_inj heq.2
      omega
    · rw [if_neg hneg'] at heq
      exact absurd heq.symm (padded_ne_minus _ _ _)
  · rw [if_neg hneg] at heq
    by_cases hneg' : m' < 0
    · rw [if_pos hneg'] at heq
      exact absurd heq (padded_ne_minus _ _ _)
    · rw [if_neg hneg'] at heq
      have habs := map_padded_inj (List.append_cancel_right heq)
      omega

/-- The microseconds of a time are less than a second. -/
theorem natAbs_microsecondsOf (now : Int) : (microsecondsOf now).natAbs < 10 ^ 6 := by
  rw [microsecondsOf, Int.natAbs_tmod]
  exact Nat.mod_lt _ (by decide)

/-- Two times have the same header exactly if they agree up to the minute, and in the
    microseconds. -/
theorem headerText_eq_iff {localtime : Int → Tm} (h : Calendar localtime) {t t' : Int}
    (ht : InYears (localtime (secondsOf t))) (ht' : InYears (localtime (secondsOf t'))) :
    headerText localtime t = headerText localtime t' ↔
      SameMinute (localtime (secondsOf t)) (localtime (secondsOf t')) ∧
        microsecondsOf t = microsecondsOf t' := by
  unfold headerText
  constructor
  · intro heq
    have hle := le_length_timeText (localtime (secondsOf t))
    have hle' := le_length_timeText (localtime (secondsOf t'))
    obtain ⟨htime, hmicro⟩ := List.append_inj heq (by simp only [List.length_take]; omega)
    rw [h.take_timeText ht, h.take_timeText ht'] at htime
    exact ⟨h.sameMinute ht ht' htime,
      microText_take_inj (natAbs_microsecondsOf t) (natAbs_microsecondsOf t') hmicro⟩
  · rintro ⟨hminute, hmicro⟩
    rw [h.take_timeText ht, h.take_timeText ht', minuteText_congr hminute, hmicro]

/-- **When the header determines the time.** For two times of years with four digits, equal
    headers mean the same second and the same microsecond, unless the times differ in the second
    of the same minute and agree in the microseconds. -/
theorem header_determines_time_iff {localtime : Int → Tm} (h : Calendar localtime) {t t' : Int}
    (ht : InYears (localtime (secondsOf t))) (ht' : InYears (localtime (secondsOf t')))
    (timer timer' : CharArray 64) (junk junk' : Nat → Byte) :
    ∃ s s' r r', formatTime localtime t timer (.new junk) = some (s, r) ∧
      formatTime localtime t' timer' (.new junk') = some (s', r') ∧
      ((s.buffer_.content = s'.buffer_.content →
          secondsOf t = secondsOf t' ∧ microsecondsOf t = microsecondsOf t') ↔
        ¬(SameMinute (localtime (secondsOf t)) (localtime (secondsOf t')) ∧
          (localtime (secondsOf t)).tm_sec ≠ (localtime (secondsOf t')).tm_sec ∧
          microsecondsOf t = microsecondsOf t')) := by
  obtain ⟨hwf, hempty⟩ := FixedBuffer.wf_new (n := kSmallBufferSize) (by decide) junk
  obtain ⟨hwf', hempty'⟩ := FixedBuffer.wf_new (n := kSmallBufferSize) (by decide) junk'
  obtain ⟨s, r, hcall, -, hcontent⟩ :=
    formatTime_spec localtime t timer (s := .new junk) hwf hempty
  obtain ⟨s', r', hcall', -, hcontent'⟩ :=
    formatTime_spec localtime t' timer' (s := .new junk') hwf' hempty'
  refine ⟨s, s', r, r', hcall, hcall', ?_⟩
  rw [hcontent, hcontent', headerText_eq_iff h ht ht']
  constructor
  · rintro hdetermines ⟨hminute, hsec, hmicro⟩
    have heq := (hdetermines ⟨hminute, hmicro⟩).1
    exact hsec (by rw [heq])
  · rintro hnot ⟨hminute, hmicro⟩
    refine ⟨h.inj _ _ ht ht' ?_, hmicro⟩
    by_contra hne
    apply hnot
    refine ⟨hminute, fun hsec => hne ?_, hmicro⟩
    cases hfields : localtime (secondsOf t)
    cases hfields' : localtime (secondsOf t')
    rw [hfields, hfields'] at hminute hsec
    obtain ⟨hyear, hmon, hmday, hhour, hmin⟩ := hminute
    simp only at hyear hmon hmday hhour hmin hsec
    rw [hyear, hmon, hmday, hhour, hmin, hsec]

/-- Universal time in the first four weeks of 1970, continued with months of four weeks. -/
def weeksTime (s : Int) : Tm where
  tm_year := 70 + s / (86400 * 28 * 12)
  tm_mon := s / (86400 * 28) % 12
  tm_mday := 1 + s / 86400 % 28
  tm_hour := s / 3600 % 24
  tm_min := s / 60 % 60
  tm_sec := s % 60

theorem calendar_weeksTime : Calendar weeksTime := by
  refine ⟨?_, ?_, ?_, ?_, ?_, ?_⟩
  · intro s s' _ _ heq
    simp only [weeksTime, Tm.mk.injEq] at heq
    omega
  all_goals
    intro s _
    simp only [weeksTime]
    omega

/-- Two times that are a minute apart. -/
theorem minuteApart_headers :
    ∃ s s' r r', formatTime weeksTime 0 (.zero 64) (.new fun _ => 0) = some (s, r) ∧
      formatTime weeksTime 60000000 (.zero 64) (.new fun _ => 0) = some (s', r') ∧
      s.buffer_.content ≠ s'.buffer_.content := by
  have hyear : InYears (weeksTime (secondsOf 0)) := by
    unfold InYears
    decide
  have hyear' : InYears (weeksTime (secondsOf 60000000)) := by
    unfold InYears
    decide
  obtain ⟨s, s', r, r', hcall, hcall', hiff⟩ := header_determines_time_iff calendar_weeksTime hyear
    hyear' (.zero 64) (.zero 64) (fun _ => 0) (fun _ => 0)
  refine ⟨s, s', r, r', hcall, hcall', fun heq => ?_⟩
  have hsame := hiff.mpr (fun hnot => absurd hnot.1.min (by decide)) heq
  exact absurd hsame.1 (by decide)

/-- **Two seconds with one header.** The header stops before the seconds, so the first and the
    second second of 1970 have the same header. -/
theorem sameMinute_headers :
    Calendar weeksTime ∧ InYears (weeksTime (secondsOf 0)) ∧
      InYears (weeksTime (secondsOf 1000000)) ∧
    ∃ s s' r r', formatTime weeksTime 0 (.zero 64) (.new fun _ => 0) = some (s, r) ∧
      formatTime weeksTime 1000000 (.zero 64) (.new fun _ => 0) = some (s', r') ∧
      s.buffer_.content = s'.buffer_.content ∧
      s.buffer_.content = chars ['1', '9', '7', '0', '/', '0', '1', '/', '0', '1', ' ', '0', '0',
        ':', '0', '0', ':', '0', '0', '0', '0', '0', '0', ' '] ∧
      secondsOf 0 ≠ secondsOf 1000000 := by
  have hyear : InYears (weeksTime (secondsOf 0)) := by
    unfold InYears
    decide
  have hyear' : InYears (weeksTime (secondsOf 1000000)) := by
    unfold InYears
    decide
  obtain ⟨hwf, hempty⟩ := FixedBuffer.wf_new (n := kSmallBufferSize) (by decide) (fun _ => 0)
  obtain ⟨s, r, hcall, -, hcontent⟩ :=
    formatTime_spec weeksTime 0 (.zero 64) (s := .new fun _ => 0) hwf hempty
  obtain ⟨s', r', hcall', -, hcontent'⟩ :=
    formatTime_spec weeksTime 1000000 (.zero 64) (s := .new fun _ => 0) hwf hempty
  refine ⟨calendar_weeksTime, hyear, hyear', s, s', r, r', hcall, hcall', ?_, ?_, by decide⟩
  · rw [hcontent, hcontent']
    exact (headerText_eq_iff calendar_weeksTime hyear hyear').mpr
      ⟨⟨rfl, rfl, rfl, rfl, rfl⟩, rfl⟩
  · rw [hcontent]
    decide +kernel

end RainWebServer.Log
