import RainWebServer.Log.FixedBuffer

/-!
# FileUtil: Writing to a Log File

Embeds `src/log/FileUtil.cc`: `append` hands its data to `fwrite_unlocked` until all of it is
accepted or an error is reported, and adds what was accepted to `writtenBytes_`. What the stream
accepts and when its error flag is set are parameters.

`fopen` succeeds: the constructor does not look at its result. The content of a file is what its
stream has accepted; behind the stream there is a buffer of 64 KiB, which reaches the disk when it
is full, at an `fflush` or at the `fclose`.

A failed write leaves the loop before its bytes are added to `writen`.

## Main results

- `FileUtil.append_spec` : the pieces that the stream is offered, and when the loop stops
- `append_counts_iff` : `writtenBytes_` grows by what was accepted exactly if no write was partial
-/

namespace RainWebServer.Log

/-! ## §1 The stream -/

/-- What `fwrite_unlocked` and `ferror` return in the `k`-th iteration, for the `len` bytes that
    are offered. -/
structure Fwrite where
  accepts : ℕ → ℕ → ℕ
  ferror : ℕ → ℕ → Bool
  accepts_le : ∀ k len, accepts k len ≤ len
  /-- The error flag is set whenever fewer bytes are accepted. -/
  ferror_of_lt : ∀ k len, accepts k len < len → ferror k len = true

/-- A stream that accepts all bytes. -/
def Fwrite.acceptAll : Fwrite where
  accepts _ len := len
  ferror _ _ := false
  accepts_le _ len := Nat.le_refl len
  ferror_of_lt _ len h := absurd h (Nat.lt_irrefl len)

/-- A stream that has room for `room` bytes. -/
def Fwrite.full (room : ℕ) : Fwrite where
  accepts _ len := min room len
  ferror _ len := decide (min room len < len)
  accepts_le _ len := Nat.min_le_right room len
  ferror_of_lt _ _ h := decide_eq_true h

/-- A call of `write`: the bytes that it offers, how many of them are accepted, and the error
    flag. -/
structure WriteCall where
  offered : List Byte
  n : ℕ
  err : Bool
  deriving DecidableEq, Repr

/-- The number of bytes that the calls have written. -/
def taken : List WriteCall → ℕ
  | [] => 0
  | call :: rest => call.n + taken rest

@[simp] theorem taken_cons (call : WriteCall) (rest : List WriteCall) :
    taken (call :: rest) = call.n + taken rest := rfl

/-- The bytes that the calls have written. -/
def takenBytes (calls : List WriteCall) : List Byte :=
  calls.flatMap fun call => call.offered.take call.n

/-! ## §2 The file -/

/-- A `FileUtil`, and what its stream has accepted, be it on disk or still in `buffer_`. -/
structure FileUtil where
  file_name : List Byte
  /-- The second in which it was opened; the class does not keep it. -/
  opened : Int
  content : List Byte
  writtenBytes_ : ℕ
  /-- How much of the content was there at the last `fflush`. -/
  flushed : ℕ
  deriving DecidableEq, Repr

namespace FileUtil

/-- The constructor, whose `fopen` succeeds. A null `file_` would be passed on to `setbuffer`. -/
def new (file_name : List Byte) (now : Int) : FileUtil := ⟨file_name, now, [], 0, 0⟩

/-- The loop of `append`: `none` if it does not end within `fuel` iterations. -/
def writeLoop (fwrite : Fwrite) (data : List Byte) : ℕ → ℕ → ℕ → Option (ℕ × List WriteCall)
  | 0, _, _ => none
  | fuel + 1, k, writen =>
    if writen = data.length then some (writen, [])
    else
      let remain := data.length - writen
      let n := fwrite.accepts k remain
      let call : WriteCall := ⟨data.drop writen, n, fwrite.ferror k remain⟩
      -- `break` leaves `writen` as it is
      if n ≠ remain ∧ call.err = true then some (writen, [call])
      else (writeLoop fwrite data fuel (k + 1) (writen + n)).map fun r => (r.1, call :: r.2)

/-- `append`, and the calls of `write` that it makes. -/
def append (file : FileUtil) (fwrite : Fwrite) (data : List Byte) :
    Option (FileUtil × List WriteCall) :=
  (writeLoop fwrite data (data.length + 1) 0 0).map fun (writen, calls) =>
    ({ file with
      content := file.content ++ takenBytes calls
      writtenBytes_ := file.writtenBytes_ + writen }, calls)

/-- `flush`. -/
def flush (file : FileUtil) : FileUtil := { file with flushed := file.content.length }

/-- The same file, at the same position. -/
structure Same (f g : FileUtil) : Prop where
  file_name : f.file_name = g.file_name
  opened : f.opened = g.opened
  content : f.content = g.content
  writtenBytes : f.writtenBytes_ = g.writtenBytes_

theorem Same.refl (f : FileUtil) : f.Same f := ⟨rfl, rfl, rfl, rfl⟩

theorem Same.trans {f g k : FileUtil} (h : f.Same g) (h' : g.Same k) : f.Same k :=
  ⟨h.file_name.trans h'.file_name, h.opened.trans h'.opened, h.content.trans h'.content,
    h.writtenBytes.trans h'.writtenBytes⟩

theorem same_flush (f : FileUtil) : f.flush.Same f := ⟨rfl, rfl, rfl, rfl⟩

end FileUtil

/-! ## §3 The pieces -/

/-- The calls are offered consecutive pieces of the data: each of them gets all that the calls
    before it have left. -/
def Consecutive (data : List Byte) : ℕ → List WriteCall → Prop
  | _, [] => True
  | pos, call :: rest =>
    call.offered = data.drop pos ∧ call.n ≤ call.offered.length ∧
      Consecutive data (pos + call.n) rest

/-- The write accepted fewer bytes than it was offered, and the error flag is set. -/
def WriteCall.Failed (call : WriteCall) : Prop :=
  call.n < call.offered.length ∧ call.err = true

/-- Of consecutive pieces no byte is lost and none is written twice. -/
theorem Consecutive.takenBytes_eq {data : List Byte} {pos : ℕ} {calls : List WriteCall}
    (h : Consecutive data pos calls) :
    takenBytes calls = (data.drop pos).take (taken calls) := by
  induction calls generalizing pos with
  | nil => rfl
  | cons call rest ih =>
    obtain ⟨hoffered, -, hrest⟩ := h
    have hbytes : takenBytes (call :: rest) =
        call.offered.take call.n ++ takenBytes rest := rfl
    rw [hbytes, taken_cons, ih hrest, hoffered, List.take_add, List.drop_drop]

namespace FileUtil

variable {fwrite : Fwrite} {data : List Byte}

/-- **The loop of `append`.** What it offers is consecutive. It ends with all of the data written,
    or behind a failed write, whose bytes it does not count. -/
theorem writeLoop_spec {fuel k writen result : ℕ} {calls : List WriteCall}
    (hle : writen ≤ data.length)
    (h : writeLoop fwrite data fuel k writen = some (result, calls)) :
    Consecutive data writen calls ∧
      ((result = data.length ∧ writen + taken calls = data.length) ∨
        ∃ before call, calls = before ++ [call] ∧ call.Failed ∧
          result = writen + taken before) := by
  induction fuel generalizing k writen result calls with
  | zero => cases h
  | succ fuel ih =>
    rw [writeLoop] at h
    split at h
    · -- nothing remains
      rename_i hall
      rw [Option.some.injEq, Prod.mk.injEq] at h
      obtain ⟨rfl, rfl⟩ := h
      exact ⟨trivial, .inl ⟨hall, hall⟩⟩
    · have hn := fwrite.accepts_le k (data.length - writen)
      have hlength : (data.drop writen).length = data.length - writen := List.length_drop
      dsimp only at h
      split at h
      · -- the write fails
        rename_i hfailed
        rw [Option.some.injEq, Prod.mk.injEq] at h
        obtain ⟨rfl, rfl⟩ := h
        refine ⟨⟨rfl, by rwa [hlength], trivial⟩, .inr ⟨[], _, rfl, ⟨?_, hfailed.2⟩, rfl⟩⟩
        rw [hlength]
        exact Nat.lt_of_le_of_ne hn hfailed.1
      · obtain ⟨⟨result', rest⟩, hrest, heq⟩ := Option.map_eq_some_iff.mp h
        rw [Prod.mk.injEq] at heq
        obtain ⟨rfl, rfl⟩ := heq
        obtain ⟨hconsecutive, hend⟩ := ih (by omega) hrest
        refine ⟨⟨rfl, by rwa [hlength], hconsecutive⟩, ?_⟩
        rcases hend with ⟨hresult, hsum⟩ | ⟨before, call, rfl, hfailed, hresult⟩
        · left
          rw [taken_cons, ← Nat.add_assoc]
          exact ⟨hresult, hsum⟩
        · right
          refine ⟨_ :: before, call, rfl, hfailed, ?_⟩
          rw [taken_cons, ← Nat.add_assoc]
          exact hresult

/-- The first write ends the loop: it accepts everything, or it reports an error. -/
theorem writeLoop_ends (fwrite : Fwrite) (hdata : data ≠ []) {fuel : ℕ} (hfuel : 2 ≤ fuel) :
    ∃ call : WriteCall, call.n = fwrite.accepts 0 data.length ∧
      writeLoop fwrite data fuel 0 0 =
        some (if call.n = data.length then data.length else 0, [call]) := by
  obtain ⟨fuel, rfl⟩ : ∃ m, fuel = m + 2 := ⟨fuel - 2, by omega⟩
  have hpos : 0 ≠ data.length := fun h => hdata (List.length_eq_zero_iff.mp h.symm)
  refine ⟨⟨data, fwrite.accepts 0 data.length, fwrite.ferror 0 data.length⟩, rfl, ?_⟩
  rw [writeLoop, if_neg hpos]
  -- the first iteration offers all of the data
  simp only [Nat.sub_zero, Nat.zero_add, List.drop_zero]
  by_cases hall : fwrite.accepts 0 data.length = data.length
  · rw [if_neg fun h => h.1 hall, writeLoop, if_pos hall, if_pos hall, hall]
    rfl
  · have hlt := Nat.lt_of_le_of_ne (fwrite.accepts_le 0 data.length) hall
    rw [if_pos ⟨hall, fwrite.ferror_of_lt 0 data.length hlt⟩, if_neg hall]

/-- `append` terminates; what it adds to the counter is not what was accepted if the first write
    accepts a part. -/
theorem append_ends (file : FileUtil) (fwrite : Fwrite) (data : List Byte) :
    ∃ file' calls, file.append fwrite data = some (file', calls) ∧
      taken calls = fwrite.accepts 0 data.length ∧
      file'.writtenBytes_ = file.writtenBytes_ +
        if fwrite.accepts 0 data.length = data.length then data.length else 0 := by
  by_cases hdata : data = []
  · -- no call is made
    subst hdata
    have hzero : fwrite.accepts 0 0 = 0 := Nat.le_zero.mp (fwrite.accepts_le 0 0)
    refine ⟨_, [], rfl, ?_, ?_⟩
    · exact hzero.symm
    · simp
  · have hlength : 0 < data.length := List.length_pos_iff.mpr hdata
    have hfuel : 2 ≤ data.length + 1 := by omega
    obtain ⟨call, hn, hloop⟩ := writeLoop_ends fwrite hdata hfuel
    rw [append, hloop, Option.map_some]
    refine ⟨_, [call], rfl, ?_, ?_⟩
    · simp [taken, hn]
    · simp [hn]

/-- **What a call of `append` does**, whatever the stream accepts: the pieces are consecutive, what
    is accepted is a prefix of the data, and the whole of it if no write fails. -/
theorem append_spec {file file' : FileUtil} {calls : List WriteCall}
    (h : file.append fwrite data = some (file', calls)) :
    file'.file_name = file.file_name ∧ file'.opened = file.opened ∧
      Consecutive data 0 calls ∧
      file'.content = file.content ++ data.take (taken calls) ∧
      (taken calls < data.length → ∃ before call, calls = before ++ [call] ∧ call.Failed) := by
  obtain ⟨⟨writen, calls'⟩, hloop, heq⟩ := Option.map_eq_some_iff.mp h
  rw [Prod.mk.injEq] at heq
  obtain ⟨rfl, rfl⟩ := heq
  obtain ⟨hconsecutive, hend⟩ := writeLoop_spec (Nat.zero_le _) hloop
  refine ⟨rfl, rfl, hconsecutive, ?_, ?_⟩
  · rw [hconsecutive.takenBytes_eq, List.drop_zero]
  · intro hearly
    rcases hend with ⟨-, hall⟩ | ⟨before, call, hcalls, hfailed, -⟩
    · omega
    · exact ⟨before, call, hcalls, hfailed⟩

end FileUtil

/-! ## §4 The counter -/

/-- A call of `append` that ends with the calls `calls`: the stream is offered consecutive pieces,
    it gets a prefix of the data, the loop stops early only behind a failed write, and the counter
    grows by the number of bytes that were accepted. -/
structure AppendCounts (file : FileUtil) (data : List Byte) (file' : FileUtil)
    (calls : List WriteCall) : Prop where
  consecutive : Consecutive data 0 calls
  content : file'.content = file.content ++ data.take (taken calls)
  stops : taken calls < data.length → ∃ before call, calls = before ++ [call] ∧ call.Failed
  counted : file'.writtenBytes_ = file.writtenBytes_ + taken calls

/-- **`append` counts what was accepted exactly if the first write accepts all of the data or
    nothing.** All else holds on every path. -/
theorem append_counts_iff (file : FileUtil) (fwrite : Fwrite) (data : List Byte) :
    (∃ file' calls, file.append fwrite data = some (file', calls) ∧
      AppendCounts file data file' calls) ↔
    fwrite.accepts 0 data.length = data.length ∨ fwrite.accepts 0 data.length = 0 := by
  obtain ⟨file', calls, hcall, haccepted, hcounter⟩ := file.append_ends fwrite data
  obtain ⟨-, -, hconsecutive, hcontent, hstops⟩ := FileUtil.append_spec hcall
  -- the only part that can fail is the counter
  have hcounted : file'.writtenBytes_ = file.writtenBytes_ + taken calls ↔
      fwrite.accepts 0 data.length = data.length ∨ fwrite.accepts 0 data.length = 0 := by
    rw [hcounter, haccepted]
    split <;> omega
  rw [← hcounted]
  constructor
  · rintro ⟨file₁, calls₁, hcall₁, hcounts⟩
    rw [hcall, Option.some.injEq, Prod.mk.injEq] at hcall₁
    obtain ⟨rfl, rfl⟩ := hcall₁
    exact hcounts.counted
  · intro h
    exact ⟨file', calls, hcall, hconsecutive, hcontent, hstops, h⟩

/-- A disk with room for two of five bytes: they are in the file, and the counter stays. -/
theorem partialWrite_not_counted :
    (∃ file' calls, (FileUtil.new [] 1).append (.full 2) [104, 101, 108, 108, 111] =
      some (file', calls) ∧ taken calls = 2 ∧ file'.content = [104, 101] ∧
        file'.writtenBytes_ = 0) ∧
    ¬∃ file' calls, (FileUtil.new [] 1).append (.full 2) [104, 101, 108, 108, 111] =
      some (file', calls) ∧ AppendCounts (.new [] 1) [104, 101, 108, 108, 111] file' calls := by
  have hcall : (FileUtil.new [] 1).append (.full 2) [104, 101, 108, 108, 111] =
      some (⟨[], 1, [104, 101], 0, 0⟩, [⟨[104, 101, 108, 108, 111], 2, true⟩]) := by
    decide
  refine ⟨⟨_, _, hcall, rfl, rfl, rfl⟩, ?_⟩
  rintro ⟨file', calls, hcall', hcounts⟩
  rw [hcall, Option.some.injEq, Prod.mk.injEq] at hcall'
  obtain ⟨rfl, rfl⟩ := hcall'
  have hcounted := hcounts.counted
  exact absurd hcounted (by decide)

end RainWebServer.Log
