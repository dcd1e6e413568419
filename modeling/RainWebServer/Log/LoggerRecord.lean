import RainWebServer.Log.Logger

/-!
# Logger: One Record, One Line

The destructor of a `Logger` puts `" - "`, the file name, `':'`, the line and a newline behind
the values, each of them only if it fits. The buffer keeps one byte free, so it takes at most
3999 bytes, and the newline needs a buffer of at most 3998. The line number needs 32 free bytes
and leaves space for the newline; it is the text before the `':'` that may fill the buffer.

## Main results

- `accepted_suffix` : what of the suffix is written, and where the file name ends
- `nameEnd_le_iff` : the sizes for which the newline fits
- `logger_record_line_iff` : when a record is one line
-/

namespace RainWebServer.Log

open RainWebServer.Lib

/-! ## §1 Lines -/

/-- The text ends with a newline and contains no other one. -/
def IsLine (record : List Byte) : Prop := ∃ body, record = body ++ [ch '\n'] ∧ ch '\n' ∉ body

/-- What comes before without a newline does not matter. -/
theorem isLine_append_iff {x y : List Byte} (hx : ch '\n' ∉ x) : IsLine (x ++ y) ↔ IsLine y := by
  constructor
  · rintro ⟨body, heq, hbody⟩
    rcases List.eq_nil_or_concat y with rfl | ⟨y', c, rfl⟩
    · -- then the newline would be in `x`
      rw [List.append_nil] at heq
      exact absurd (heq ▸ List.mem_append_right _ (List.mem_singleton_self _)) hx
    · rw [List.concat_eq_append, ← List.append_assoc] at heq
      obtain ⟨hstart, hlast⟩ := List.append_inj' heq rfl
      refine ⟨y', by rw [List.concat_eq_append, hlast], fun hmem => hbody ?_⟩
      rw [← hstart]
      exact List.mem_append_right _ hmem
  · rintro ⟨body, rfl, hbody⟩
    refine ⟨x ++ body, by rw [List.append_assoc], ?_⟩
    rw [List.mem_append, not_or]
    exact ⟨hx, hbody⟩

/-- A text that ends with a newline is a line if it has no other one. -/
theorem isLine_concat_iff (x : List Byte) : IsLine (x ++ [ch '\n']) ↔ ch '\n' ∉ x := by
  constructor
  · rintro ⟨body, heq, hbody⟩
    rw [(List.append_inj' heq rfl).1]
    exact hbody
  · intro hx
    exact ⟨x, rfl, hx⟩

theorem not_isLine_of_not_mem {x : List Byte} (h : ch '\n' ∉ x) : ¬IsLine x := by
  rintro ⟨body, rfl, -⟩
  exact h (List.mem_append_right _ (List.mem_singleton_self _))

/-! ## §2 Texts without newlines -/

theorem newline_ne_digit {d : Nat} (hd : d < 10) : ch '\n' ≠ digitChar d := by
  intro h
  have heq := congrArg UInt8.toNat h
  rw [toNat_digitChar hd] at heq
  change 10 = 48 + d at heq
  omega

theorem newline_not_mem_decimal (num : Int) : ch '\n' ∉ decimal num := by
  intro h
  rcases mem_decimal h with hsign | ⟨d, hd, hdigit⟩
  · exact absurd hsign (by decide)
  · exact newline_ne_digit hd hdigit

theorem newline_not_mem_formatD (w : Nat) (num : Int) : ch '\n' ∉ formatD w num := by
  intro h
  rcases mem_formatD h with hblank | hsign | ⟨d, hd, hdigit⟩
  · exact absurd hblank (by decide)
  · exact absurd hsign (by decide)
  · exact newline_ne_digit hd hdigit

theorem newline_not_mem_formatZeroD (w : Nat) (num : Int) : ch '\n' ∉ formatZeroD w num := by
  intro h
  rcases mem_formatZeroD h with hsign | ⟨d, hd, hdigit⟩
  · exact absurd hsign (by decide)
  · exact newline_ne_digit hd hdigit

theorem newline_not_mem_headerText (localtime : Int → Tm) (now : Int) :
    ch '\n' ∉ headerText localtime now := by
  have hslash : ch '\n' ≠ ch '/' := by decide
  have hblank : ch '\n' ≠ ch ' ' := by decide
  have hcolon : ch '\n' ≠ ch ':' := by decide
  rw [headerText, List.mem_append, not_or]
  constructor
  · intro h
    have htime := List.mem_of_mem_take h
    simp [timeText, newline_not_mem_formatD, newline_not_mem_formatZeroD, hslash, hblank,
      hcolon] at htime
  · intro h
    have hmicro := List.mem_of_mem_take h
    simp [microText, newline_not_mem_formatZeroD, hblank] at hmicro

theorem length_headerText (localtime : Int → Tm) (now : Int) :
    (headerText localtime now).length = 24 := by
  have htime := le_length_timeText (localtime (secondsOf now))
  have hmicro := le_length_microText (microsecondsOf now)
  rw [headerText, List.length_append, List.length_take, List.length_take]
  omega

theorem newline_not_mem_levelName (level : LogLevel) : ch '\n' ∉ getLevelName level := by
  cases level <;> decide

/-! ## §3 The logger before its destructor -/

namespace Logger

/-- The constructor writes the header and the level. -/
theorem new_spec (env : LogEnv) (filename : List Byte) (line : Int) (level : LogLevel) :
    ∃ s, new env filename line level = some ⟨s, level, line, .new filename⟩ ∧ s.buffer_.WF ∧
      s.buffer_.content = headerText env.localtime env.now ++ getLevelName level := by
  obtain ⟨hwf, hempty⟩ := FixedBuffer.wf_new (n := kSmallBufferSize) (by decide) env.junk
  obtain ⟨s₁, timer, hcall, hwf₁, hcontent⟩ :=
    formatTime_spec env.localtime env.now env.t_timer (s := .new env.junk) hwf hempty
  have hlevel : (Operand.generalTemplate (getLevelName level) 6).valid = true := by
    cases level <;> decide
  obtain ⟨s₂, hcall', hadds⟩ := LogStream.shiftLeft_spec hwf₁ hlevel
  have havail : s₁.buffer_.avail = 3976 := by
    rw [LogStream.avail_eq hwf₁, hcontent, length_headerText]
    rfl
  have htext : (Operand.generalTemplate (getLevelName level) 6).text = getLevelName level := by
    cases level <;> rfl
  have hfits : (Operand.generalTemplate (getLevelName level) 6).fits 3976 = true := rfl
  rw [havail, if_pos hfits, htext] at hadds
  refine ⟨s₂, ?_, hadds.wf, by rw [hadds.content, hcontent]⟩
  rw [new, newImpl, hcall]
  simp [hcall']

/-- The values are taken one after another. -/
theorem streamAll_spec (l : Logger) (h : l.stream_.buffer_.WF) {values : List Operand}
    (hvalid : ∀ value ∈ values, value.valid = true) :
    ∃ s, l.streamAll values = some { l with stream_ := s } ∧ s.buffer_.WF ∧
      s.buffer_.content =
        l.stream_.buffer_.content ++ accepted l.stream_.buffer_.avail values := by
  obtain ⟨s, hcall, hadds⟩ := l.stream_.shiftAll_spec h hvalid
  refine ⟨s, ?_, hadds.wf, hadds.content⟩
  rw [streamAll, hcall, Option.map_some]

end Logger

/-! ## §4 The suffix -/

/-- Where the file name begins in the buffer: behind the separator, if that was written. -/
def nameStart (size : Nat) : Nat := if size ≤ 3996 then size + 3 else size

/-- The file name of `len` bytes is written. -/
def NameFits (size len : Nat) : Prop := nameStart size + len < 4000

instance (size len : Nat) : Decidable (NameFits size len) := inferInstanceAs (Decidable (_ < _))

/-- Where the file name ends, if it was written. -/
def nameEnd (size len : Nat) : Nat :=
  if NameFits size len then nameStart size + len else nameStart size

/-- The file name as `GeneralTemplate` takes it. -/
def SourceFile.name (file : SourceFile) : List Byte := file.data_.take (sizeOfInt file.size_)

/-- The condition on the bytes in the buffer before the destructor and on the file name: there is
    space for a newline behind the name, and the name contains none; or the name fills the buffer
    and is a line itself. -/
def LineFits (size : Nat) (file : SourceFile) : Prop :=
  nameEnd size (sizeOfInt file.size_) ≤ 3997 ∧
      (NameFits size (sizeOfInt file.size_) → ch '\n' ∉ file.name) ∨
    nameStart size + sizeOfInt file.size_ = 3999 ∧ IsLine file.name

/-- The sizes for which a newline fits behind the name. -/
theorem nameEnd_le_iff {size : Nat} (hsize : size < 4000) (len : Nat) :
    nameEnd size len ≤ 3997 ↔
      size ≤ 3994 ∧ size + len ≠ 3995 ∧ size + len ≠ 3996 ∨ size = 3997 ∧ len ≠ 1 ∧ len ≠ 2 := by
  unfold nameEnd NameFits nameStart
  split <;> split <;> omega

/-- A character is taken if it leaves space for the NUL. -/
theorem accepted_char {avail : Nat} (h : 2 ≤ avail) (c : Byte) (rest : List Operand) :
    accepted avail (.char c :: rest) = c :: accepted (avail - 1) rest := by
  have hfits : (Operand.char c).fits avail = true := decide_eq_true (by
    show 1 < avail
    omega)
  rw [accepted_cons_of_fits _ hfits]
  rfl

theorem accepted_char_of_le {avail : Nat} (h : avail ≤ 1) (c : Byte) (rest : List Operand) :
    accepted avail (.char c :: rest) = accepted avail rest := by
  refine accepted_cons_of_not_fits _ fun hfits => ?_
  have hlt : 1 < avail := of_decide_eq_true hfits
  omega

/-- The line is written or left out, and either way the newline fits behind it. -/
theorem accepted_line {avail : Nat} (h : 2 ≤ avail) {line : Int}
    (hline : IntType.int.InRange line) :
    ∃ text, ch '\n' ∉ text ∧
      accepted avail [.integer .int line, .char (ch '\n')] = text ++ [ch '\n'] := by
  by_cases hdigits : kMaxNumberSize ≤ avail
  · -- the line leaves at least 12 of the 32 bytes that it needs
    have hfits : (Operand.integer .int line).fits avail = true := decide_eq_true hdigits
    have hlength := length_decimal_le hline
    have hleft : 2 ≤ avail - (decimal line).length := by
      unfold kMaxNumberSize at hdigits
      omega
    refine ⟨decimal line, newline_not_mem_decimal line, ?_⟩
    rw [accepted_cons_of_fits _ hfits]
    show decimal line ++ accepted (avail - (decimal line).length) _ = _
    rw [accepted_char hleft]
    rfl
  · have hfits : (Operand.integer .int line).fits avail ≠ true := by
      simpa [Operand.fits] using hdigits
    refine ⟨[], List.not_mem_nil, ?_⟩
    rw [accepted_cons_of_not_fits _ hfits, accepted_char h]
    rfl

/-- The `':'`, the line and the newline. -/
theorem accepted_tail (avail : Nat) {line : Int} (hline : IntType.int.InRange line) :
    (3 ≤ avail → ∃ text, ch '\n' ∉ text ∧
      accepted avail [.char (ch ':'), .integer .int line, .char (ch '\n')] = text ++ [ch '\n']) ∧
    (avail = 2 →
      accepted avail [.char (ch ':'), .integer .int line, .char (ch '\n')] = [ch ':']) ∧
    (avail ≤ 1 → accepted avail [.char (ch ':'), .integer .int line, .char (ch '\n')] = []) := by
  refine ⟨fun h => ?_, ?_, fun h => ?_⟩
  · obtain ⟨text, htext, htail⟩ := accepted_line (show 2 ≤ avail - 1 by omega) hline
    refine ⟨ch ':' :: text, ?_, ?_⟩
    · rw [List.mem_cons, not_or]
      exact ⟨by decide, htext⟩
    · rw [accepted_char (by omega), htail, List.cons_append]
  · rintro rfl
    rfl
  · -- nothing fits, the least part of the suffix neither
    have hdigits : (Operand.integer .int line).fits avail ≠ true := by
      intro hfits
      have hle : 32 ≤ avail := of_decide_eq_true hfits
      omega
    rw [accepted_char_of_le h, accepted_cons_of_not_fits _ hdigits, accepted_char_of_le h,
      accepted]

/-- **What of the suffix is written** to a buffer with `size` bytes. -/
theorem accepted_suffix {size : Nat} (hsize : size < 4000) {file : SourceFile}
    (hname : sizeOfInt file.size_ < 4000 → sizeOfInt file.size_ ≤ file.data_.length)
    (line : Int) :
    ∃ separator, ch '\n' ∉ separator ∧
      accepted (4000 - size) [.charPtr (chars [' ', '-', ' ']),
        .generalTemplate file.data_ file.size_, .char (ch ':'), .integer .int line,
        .char (ch '\n')] =
      separator ++ ((if NameFits size (sizeOfInt file.size_) then file.name else []) ++
        accepted (4000 - nameEnd size (sizeOfInt file.size_))
          [.char (ch ':'), .integer .int line, .char (ch '\n')]) := by
  -- the name goes to the space that the separator leaves
  have hrest : accepted (4000 - nameStart size) [.generalTemplate file.data_ file.size_,
        .char (ch ':'), .integer .int line, .char (ch '\n')] =
      (if NameFits size (sizeOfInt file.size_) then file.name else []) ++
        accepted (4000 - nameEnd size (sizeOfInt file.size_))
          [.char (ch ':'), .integer .int line, .char (ch '\n')] := by
    by_cases hfits : NameFits size (sizeOfInt file.size_)
    · have htakes : (Operand.generalTemplate file.data_ file.size_).fits (4000 - nameStart size) =
          true := decide_eq_true (by
        unfold NameFits at hfits
        omega)
      have hlength : file.name.length = sizeOfInt file.size_ := by
        rw [SourceFile.name, List.length_take]
        refine Nat.min_eq_left (hname ?_)
        unfold NameFits at hfits
        omega
      have hleft : 4000 - nameStart size - file.name.length =
          4000 - nameEnd size (sizeOfInt file.size_) := by
        rw [hlength, nameEnd, if_pos hfits]
        omega
      rw [accepted_cons_of_fits _ htakes, if_pos hfits, ← hleft]
      rfl
    · have htakes : (Operand.generalTemplate file.data_ file.size_).fits (4000 - nameStart size) ≠
          true := by
        simp only [Operand.fits, ne_eq, decide_eq_true_eq]
        unfold NameFits at hfits
        omega
      rw [accepted_cons_of_not_fits _ htakes, if_neg hfits, nameEnd, if_neg hfits, List.nil_append]
  rw [← hrest]
  have hseparator : (Operand.charPtr (chars [' ', '-', ' '])).fits (4000 - size) =
      decide (3 < 4000 - size) := rfl
  by_cases hlow : size ≤ 3996
  · refine ⟨chars [' ', '-', ' '], by decide, ?_⟩
    rw [accepted_cons_of_fits _ (by rw [hseparator]; exact decide_eq_true (by omega)), nameStart,
      if_pos hlow, Nat.sub_add_eq]
    rfl
  · refine ⟨[], by decide, ?_⟩
    have hnot : (Operand.charPtr (chars [' ', '-', ' '])).fits (4000 - size) ≠ true := by
      rw [hseparator, ne_eq, decide_eq_true_eq]
      omega
    rw [accepted_cons_of_not_fits _ hnot, nameStart, if_neg hlow, List.nil_append]

/-- If a newline fits behind the name, the condition is that the name contains none. -/
theorem lineFits_of_le {size : Nat} {file : SourceFile}
    (h : nameEnd size (sizeOfInt file.size_) ≤ 3997) :
    LineFits size file ↔ (NameFits size (sizeOfInt file.size_) → ch '\n' ∉ file.name) := by
  unfold LineFits
  constructor
  · rintro (⟨-, hplain⟩ | ⟨hfull, -⟩) hfits
    · exact hplain hfits
    · -- a name that ends at 3999 leaves no space
      rw [nameEnd, if_pos hfits] at h
      omega
  · exact fun hplain => .inl ⟨h, hplain⟩

/-- If only the `':'` fits behind the name, the condition fails. -/
theorem not_lineFits_of_eq {size : Nat} {file : SourceFile}
    (h : nameEnd size (sizeOfInt file.size_) = 3998) : ¬LineFits size file := by
  rintro (⟨hle, -⟩ | ⟨hfull, -⟩)
  · omega
  · have hfits : NameFits size (sizeOfInt file.size_) := by
      unfold NameFits
      omega
    rw [nameEnd, if_pos hfits] at h
    omega

/-- If nothing fits behind the name, the condition is that the name is written and is a line. -/
theorem lineFits_of_gt {size : Nat} {file : SourceFile}
    (h : 3998 < nameEnd size (sizeOfInt file.size_)) :
    LineFits size file ↔ NameFits size (sizeOfInt file.size_) ∧ IsLine file.name := by
  constructor
  · rintro (⟨hle, -⟩ | ⟨hfull, hname⟩)
    · omega
    · refine ⟨?_, hname⟩
      unfold NameFits
      omega
  · rintro ⟨hfits, hname⟩
    refine .inr ⟨?_, hname⟩
    rw [nameEnd, if_pos hfits] at h
    unfold NameFits at hfits
    omega

/-- A text that ends with the `':'` is no line. -/
theorem not_isLine_colon (text : List Byte) : ¬IsLine (text ++ [ch ':']) := by
  rintro ⟨body, hbody, -⟩
  have hlast := congrArg List.getLast? hbody
  simp only [List.getLast?_append, List.getLast?_singleton, Option.some_or] at hlast
  exact absurd (Option.some.inj hlast) (by decide)

/-- The record that the suffix completes is a line exactly if the condition holds. -/
theorem isLine_suffix_iff {content : List Byte} (hcontent : ch '\n' ∉ content)
    (hsize : content.length < 4000) {file : SourceFile}
    (hname : sizeOfInt file.size_ < 4000 → sizeOfInt file.size_ ≤ file.data_.length)
    {line : Int} (hline : IntType.int.InRange line) :
    IsLine (content ++ accepted (4000 - content.length) [.charPtr (chars [' ', '-', ' ']),
        .generalTemplate file.data_ file.size_, .char (ch ':'), .integer .int line,
        .char (ch '\n')]) ↔ LineFits content.length file := by
  obtain ⟨separator, hseparator, haccepted⟩ := accepted_suffix hsize hname line
  rw [haccepted, isLine_append_iff hcontent, isLine_append_iff hseparator]
  obtain ⟨hthree, htwo, hone⟩ :=
    accepted_tail (4000 - nameEnd content.length (sizeOfInt file.size_)) hline
  rcases Nat.lt_trichotomy (nameEnd content.length (sizeOfInt file.size_)) 3998 with
    hlt | heq | hgt
  · -- the newline is written: the record is a line unless the name has a newline
    obtain ⟨text, htext, htail⟩ := hthree (by omega)
    rw [htail, ← List.append_assoc, isLine_concat_iff, List.mem_append, not_or,
      lineFits_of_le (Nat.le_of_lt_succ hlt)]
    by_cases hfits : NameFits content.length (sizeOfInt file.size_)
    · rw [if_pos hfits]
      exact ⟨fun h _ => h.1, fun h => ⟨h hfits, htext⟩⟩
    · rw [if_neg hfits]
      exact iff_of_true ⟨List.not_mem_nil, htext⟩ fun h => absurd h hfits
  · -- the record ends with the `':'`
    rw [htwo (by omega)]
    exact iff_of_false (not_isLine_colon _) (not_lineFits_of_eq heq)
  · -- the record ends with the name, or with the separator
    rw [hone (by omega), List.append_nil, lineFits_of_gt hgt]
    by_cases hfits : NameFits content.length (sizeOfInt file.size_)
    · rw [if_pos hfits]
      exact ⟨fun h => ⟨hfits, h⟩, fun h => h.2⟩
    · rw [if_neg hfits]
      exact iff_of_false (not_isLine_of_not_mem List.not_mem_nil) fun h => hfits h.1

/-! ## §5 Records -/

/-- The length of a file name as an `int`. -/
theorem sourceFile_valid (filename : List Byte) :
    IntType.int.InRange (SourceFile.new filename).size_ ∧
      (SourceFile.new filename).size_ ≤ (SourceFile.new filename).data_.length := by
  simp only [SourceFile.new, intOfSize, IntType.InRange, IntType.signed, IntType.bits, if_true]
  omega

/-- A length that is small enough is that of a part of the name. -/
theorem sourceFile_size_le (filename : List Byte)
    (h : sizeOfInt (SourceFile.new filename).size_ < 4000) :
    sizeOfInt (SourceFile.new filename).size_ ≤ (SourceFile.new filename).data_.length := by
  obtain ⟨hrange, hle⟩ := sourceFile_valid filename
  simp only [IntType.InRange, IntType.signed, IntType.bits, if_true] at hrange
  unfold sizeOfInt at *
  omega

/-- The destructor of a logger whose stream has no newline yet. -/
theorem Logger.destroy_spec {s : LogStream} (h : s.buffer_.WF)
    (hplain : ch '\n' ∉ s.buffer_.content) (level : LogLevel) (filename : List Byte) {line : Int}
    (hline : IntType.int.InRange line) :
    ∃ record, destroy ⟨s, level, line, .new filename⟩ = some (record, decide (level = .FATAL)) ∧
      (IsLine record ↔ LineFits s.buffer_.length (.new filename)) := by
  obtain ⟨hrange, hle⟩ := sourceFile_valid filename
  have hvalid : ∀ value ∈ [.charPtr (chars [' ', '-', ' ']),
      .generalTemplate (SourceFile.new filename).data_ (SourceFile.new filename).size_,
      .char (ch ':'), .integer .int line, .char (ch '\n')], Operand.valid value = true := by
    simp only [List.forall_mem_cons, Operand.valid, decide_eq_true hrange, decide_eq_true hle,
      decide_eq_true hline, Bool.and_self, true_and]
    exact fun _ hmem => absurd hmem List.not_mem_nil
  obtain ⟨s', hcall, -, hcontent⟩ :=
    streamAll_spec ⟨s, level, line, .new filename⟩ h hvalid
  have hlength := FixedBuffer.length_content s.buffer_
  have hsize : s.buffer_.content.length < 4000 := by
    rw [hlength]
    exact h.size_lt
  refine ⟨s'.buffer_.content, ?_, ?_⟩
  · rw [destroy, finish, hcall, Option.map_some]
  · rw [hcontent, show s.buffer_.length = s.buffer_.content.length from hlength.symm]
    have havail : s.buffer_.avail = 4000 - s.buffer_.content.length := LogStream.avail_eq h
    rw [havail]
    exact isLine_suffix_iff hplain hsize (sourceFile_size_le filename) hline

/-- **When a record is one line.** For every level, file name and line, and all values without a
    newline: the record that the destructor passes to `g_output` is one line exactly if the bytes
    in the buffer and the file name leave space for the newline. -/
theorem logger_record_line_iff (env : LogEnv) (filename : List Byte) {line : Int}
    (hline : IntType.int.InRange line) (level : LogLevel) {values : List Operand}
    (hvalid : ∀ value ∈ values, value.valid = true)
    (hplain : ∀ value ∈ values, ch '\n' ∉ value.text) :
    ∃ l l' record aborts, Logger.new env filename line level = some l ∧
      l.streamAll values = some l' ∧ l'.destroy = some (record, aborts) ∧
      (IsLine record ↔ LineFits l'.stream_.buffer_.length (.new filename)) := by
  obtain ⟨s, hnew, hwf, hcontent⟩ := Logger.new_spec env filename line level
  obtain ⟨s', hcall, hwf', hcontent'⟩ :=
    Logger.streamAll_spec ⟨s, level, line, .new filename⟩ hwf hvalid
  have hnone : ch '\n' ∉ s'.buffer_.content := by
    rw [hcontent', List.mem_append, not_or, hcontent, List.mem_append, not_or]
    refine ⟨⟨newline_not_mem_headerText _ _, newline_not_mem_levelName level⟩, fun hmem => ?_⟩
    obtain ⟨value, hvalue, htext⟩ := exists_of_mem_accepted hmem
    exact hplain value hvalue htext
  obtain ⟨record, hdestroy, hiff⟩ := Logger.destroy_spec hwf' hnone level filename hline
  exact ⟨_, _, record, _, hnew, hcall, hdestroy, hiff⟩

/-- The first second of 1970, on a thread that has not logged before. -/
def firstSecond : LogEnv := ⟨0, weeksTime, fun _ => [], .zero 64, fun _ => 0⟩

/-- `src/a.cc`. -/
def sourceName : List Byte := chars ['s', 'r', 'c', '/', 'a', '.', 'c', 'c']

/-- A record of one word. -/
theorem shortRecord_line :
    ∃ l l' record aborts, Logger.new firstSecond sourceName 7 .INFO = some l ∧
      l.streamAll [.string (chars ['u', 'p']), .integer .int (-3)] = some l' ∧
      l'.destroy = some (record, aborts) ∧ IsLine record := by
  obtain ⟨l, l', record, aborts, hnew, hcall, hdestroy, hiff⟩ := logger_record_line_iff firstSecond
    sourceName (show IntType.int.InRange 7 by decide) .INFO
    (show ∀ value ∈ [.string (chars ['u', 'p']), .integer .int (-3)], Operand.valid value = true by
      decide)
    (show ∀ value ∈ [.string (chars ['u', 'p']), .integer .int (-3)],
      ch '\n' ∉ Operand.text value by decide +kernel)
  refine ⟨l, l', record, aborts, hnew, hcall, hdestroy, hiff.mpr ?_⟩
  have hlength : ((Logger.new firstSecond sourceName 7 .INFO).bind fun l =>
      l.streamAll [.string (chars ['u', 'p']), .integer .int (-3)]).map
        (fun l => l.stream_.buffer_.length) = some 34 := by
    decide +kernel
  rw [hnew, Option.bind_some, hcall, Option.map_some, Option.some.injEq] at hlength
  rw [hlength]
  refine .inl ⟨by decide, fun _ => by decide⟩

/-- A word of 3961 characters. -/
def longWord : List Byte := List.replicate 3961 (ch 'x')

/-- **A record without its newline.** The word fills the buffer to 3991 bytes; with the separator
    and the name `a.cc` there are 3998, and the `':'` is the last byte that fits. -/
theorem longRecord_no_newline :
    ∃ l l' record aborts, Logger.new firstSecond sourceName 7 .INFO = some l ∧
      l.streamAll [.string longWord] = some l' ∧ ch '\n' ∉ longWord ∧
      l'.destroy = some (record, aborts) ∧ ¬IsLine record := by
  have hlong : longWord.length = 3961 := List.length_replicate
  have hword : ch '\n' ∉ longWord := by
    intro hmem
    exact absurd (List.eq_of_mem_replicate hmem) (by decide)
  have hvalid : ∀ value ∈ [Operand.string longWord], value.valid = true := by
    intro value hvalue
    rw [List.mem_singleton.mp hvalue]
    rfl
  obtain ⟨s, hnew, hwf, hcontent⟩ := Logger.new_spec firstSecond sourceName 7 .INFO
  obtain ⟨s', hcall, hwf', hcontent'⟩ :=
    Logger.streamAll_spec ⟨s, .INFO, 7, .new sourceName⟩ hwf hvalid
  have hlength : s.buffer_.content.length = 30 := by
    rw [hcontent, List.length_append, length_headerText]
    rfl
  have hfits : (Operand.string longWord).fits s.buffer_.avail = true := by
    simp only [Operand.fits, Operand.text, hlong, LogStream.avail_eq hwf, hlength]
    decide
  rw [accepted_cons_of_fits _ hfits, accepted, List.append_nil] at hcontent'
  have hplain : ch '\n' ∉ s'.buffer_.content := by
    rw [hcontent', List.mem_append, not_or, hcontent, List.mem_append, not_or]
    exact ⟨⟨newline_not_mem_headerText _ _, newline_not_mem_levelName .INFO⟩, hword⟩
  have hfull : s'.buffer_.length = 3991 := by
    rw [show s'.buffer_.length = s'.buffer_.content.length from
      (FixedBuffer.length_content s'.buffer_).symm, hcontent', List.length_append, hlength]
    simp only [Operand.text, hlong]
  obtain ⟨record, hdestroy, hiff⟩ :=
    Logger.destroy_spec hwf' hplain .INFO sourceName (show IntType.int.InRange 7 by decide)
  refine ⟨_, _, record, _, hnew, hcall, hword, hdestroy, fun hline => ?_⟩
  rw [hiff, hfull] at hline
  rcases hline with ⟨hend, -⟩ | ⟨hend, -⟩
  · exact absurd hend (by decide)
  · exact absurd hend (by decide)

end RainWebServer.Log
