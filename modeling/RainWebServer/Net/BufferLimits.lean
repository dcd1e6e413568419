import RainWebServer.Net.BufferQueue

/-!
# Buffer: Limits

Two limits of a `Buffer`: how much `retrieveAsString` takes when it is asked for more than there
is, and how long the vector gets.

`retrieve` compares the length with `readableBytes()`. `retrieveAsString` copies first and leaves
the comparison to `retrieve`, so a string that is too long goes on behind the write position,
where bytes of earlier messages are, or leaves the vector.

When `makeSpace` grows the vector it keeps the consumed bytes in front. It grows only if the
writable and the consumed bytes together are not enough, so the consumed bytes are fewer than
the bytes asked for, and the vector is at most twice as long as the content that the buffer was
asked to hold.

## Main results

- `retrieveAsString_exact_iff` : `retrieveAsString` is exact if the length is readable
- `buffer_size_bounded` : the vector is bounded by the peak of the content
-/

namespace RainWebServer.Net

open RainWebServer.Lib

/-! ## §1 Strings of any length -/

open SizedBuffer in
/-- The calls that add and remove bytes; a caller may ask for any length. -/
def retrieveMachine : Machine Buffer BufferOp where
  enabled b
    | .append data => decide (data.length ≤ maxSize)
    | .ensureWritableBytes _ => false
    | .retrieve len => decide (len < 2 ^ 64)
    | .retrieveAll => true
    | .retrieveAsString len => decide (len < 2 ^ 64)
    | .retrieveAllAsString => true
    | .readFd none => true
    | .readFd (some bytes) => decide (bytes.length ≤ offered b)
  step b op := (exec b op).map Prod.fst

namespace SizedBuffer

variable {b b' : Buffer} {op : BufferOp}

/-- The buffer that a call leaves. -/
theorem eq_of_call {b₁ : Buffer} {out out₁ : Outcome} (h : some (b₁, out₁) = some (b', out)) :
    b' = b₁ :=
  (Prod.mk.inj (Option.some.inj h)).1.symm

/-- A string that is returned has the length that was asked for. -/
theorem retrieveAsString_returns {len : Nat} {out : Outcome}
    (h : retrieveAsString b len = some (b', out)) :
    b' = retrieve b len ∧ ∃ result, out = .returned result ∧ result.length = len := by
  unfold retrieveAsString at h
  split at h
  · rename_i hfit
    rw [Option.some.injEq, Prod.mk.injEq] at h
    refine ⟨h.1.symm, _, h.2.symm, ?_⟩
    rw [length_slice hfit]
    omega
  · cases h

/-- A call keeps a buffer well-formed, also if it asks for too long a string. -/
theorem Sized.retrieveMachine_step (h : Sized b) (he : retrieveMachine.enabled b op = true)
    (hs : retrieveMachine.step b op = some b') : Sized b' := by
  obtain ⟨⟨b₁, out⟩, hexec, rfl⟩ := Option.map_eq_some_iff.mp hs
  -- every call but `retrieveAsString` is one of the queue that does not wrap
  have hqueue : bufferMachine.enabled b op = true → noWrap b op = true → Sized b₁ := by
    intro he' hc
    obtain ⟨b₂, out₂, hexec₂, hkeeps, -⟩ := exec_spec h he'
    rw [hexec, Option.some.injEq, Prod.mk.injEq] at hexec₂
    rw [hexec₂.1]
    exact (hkeeps hc).1
  cases op with
  | append data => exact hqueue he rfl
  | ensureWritableBytes len => cases he
  | retrieve len => exact hqueue he rfl
  | retrieveAll => exact hqueue he rfl
  | retrieveAsString len =>
    rw [(retrieveAsString_returns hexec).1]
    exact h.retrieve len
  | retrieveAllAsString => exact hqueue he rfl
  | readFd read =>
    cases read with
    | none => exact hqueue rfl rfl
    | some bytes => exact hqueue he rfl

/-- The positions of a buffer whose constructor wrapped are outside its vector. -/
def Outside (b : Buffer) : Prop :=
  b.buffer_.length < kCheapPrepend ∧ b.readerIndex_ = kCheapPrepend ∧
    b.writerIndex_ = kCheapPrepend

/-- No bytes can be copied to or from a buffer whose constructor wrapped. -/
theorem Outside.copyInto_eq (h : Outside b) (data : List Byte) :
    copyInto b.buffer_ b.writerIndex_ data = none := by
  obtain ⟨hlength, -, hwriter⟩ := h
  apply if_neg
  omega

theorem Outside.retrieveAsString_eq (h : Outside b) (len : Nat) :
    retrieveAsString b len = none := by
  obtain ⟨hlength, hreader, -⟩ := h
  apply if_neg
  omega

/-- A call that returns leaves it as it is. -/
theorem Outside.retrieveMachine_step (h : Outside b) (he : retrieveMachine.enabled b op = true)
    (hs : retrieveMachine.step b op = some b') : Outside b' := by
  have hcopy := h.copyInto_eq
  have hstring := h.retrieveAsString_eq
  obtain ⟨⟨b₁, out⟩, hexec, rfl⟩ := Option.map_eq_some_iff.mp hs
  obtain ⟨hlength, hreader, hwriter⟩ := h
  have hall : Outside b.retrieveAll := ⟨hlength, rfl, rfl⟩
  cases op with
  | append data =>
    -- the writable part seems to be nearly `2 ^ 64` bytes, so the vector does not grow
    have hroom : ¬writableBytes b < data.length := by
      have hdata : data.length ≤ maxSize := of_decide_eq_true he
      unfold writableBytes sizeTSub maxSize kCheapPrepend at *
      omega
    simp [exec, append, ensureWritableBytes, hroom, hcopy] at hexec
  | ensureWritableBytes len => cases he
  | retrieve len =>
    have hnone : ¬len < readableBytes b := by
      unfold readableBytes sizeTSub
      rw [hreader, hwriter]
      unfold kCheapPrepend
      omega
    rw [exec, retrieve, if_neg hnone, Option.some.injEq, Prod.mk.injEq] at hexec
    rw [← hexec.1]
    exact hall
  | retrieveAll =>
    rw [eq_of_call hexec]
    exact hall
  | retrieveAsString len =>
    rw [exec, hstring] at hexec
    cases hexec
  | retrieveAllAsString =>
    rw [exec, hstring] at hexec
    cases hexec
  | readFd read =>
    cases read with
    | none =>
      rw [eq_of_call hexec]
      exact ⟨hlength, hreader, hwriter⟩
    | some bytes => simp [exec, readFd, hcopy] at hexec

/-- `retrieveAsString(len)` takes the first bytes of the content, `len` of them or all of them,
    and leaves what `retrieve(len)` leaves. -/
def TakesFirst (b : Buffer) (len : Nat) : Prop :=
  ∃ b', retrieveAsString b len = some (b', .returned (b.readable.take len)) ∧
    b' = retrieve b len ∧ b'.readable = b.readable.drop len

/-- For a well-formed buffer the length must be readable. -/
theorem Sized.takesFirst_iff (h : Sized b) (len : Nat) :
    TakesFirst b len ↔ len ≤ readableBytes b := by
  rw [h.readableBytes_eq]
  constructor
  · rintro ⟨b', hstring, -⟩
    obtain ⟨-, result, hresult, hlength⟩ := retrieveAsString_returns hstring
    rw [Outcome.returned.injEq] at hresult
    rw [← hresult, List.length_take, h.wf.length_readable] at hlength
    omega
  · intro hlen
    obtain ⟨b', hstring, -, hreadable⟩ := retrieveAsString_spec h hlen
    exact ⟨b', hstring, (retrieveAsString_returns hstring).1, hreadable⟩

end SizedBuffer

open SizedBuffer in
/-- **When `retrieveAsString` is exact.** After any calls that add and remove bytes,
    `retrieveAsString(len)` returns and removes the first bytes of the content exactly if the
    constructor did not wrap and `len` bytes are readable. -/
theorem retrieveAsString_exact_iff {initialSize : Nat} (hsize : initialSize < 2 ^ 64) {b₀ : Buffer}
    (h₀ : construct initialSize = some b₀) {ops : List BufferOp} {b : Buffer}
    (h : retrieveMachine.Reaches b₀ ops b) (len : Nat) :
    TakesFirst b len ↔ kCheapPrepend + initialSize < 2 ^ 64 ∧ len ≤ readableBytes b := by
  rcases Nat.lt_or_ge (kCheapPrepend + initialSize) (2 ^ 64) with hsum | hwrap
  · obtain ⟨-, hsized₀, -⟩ := construct_spec hsize h₀
    have hsized : Sized b :=
      h.preserves (fun _ _ _ ht he hs => ht.retrieveMachine_step he hs) (hsized₀ hsum)
    rw [hsized.takesFirst_iff]
    exact ⟨fun hlen => ⟨hsum, hlen⟩, And.right⟩
  · have hlength : sizeT (kCheapPrepend + initialSize) < kCheapPrepend := by
      unfold sizeT kCheapPrepend at *
      omega
    have houtside₀ : Outside b₀ := by
      unfold construct at h₀
      split at h₀
      · cases h₀
      · rw [Option.some.injEq] at h₀
        rw [← h₀]
        exact ⟨by rwa [List.length_replicate], rfl, rfl⟩
    have houtside : Outside b :=
      h.preserves (fun _ _ _ ht he hs => ht.retrieveMachine_step he hs) houtside₀
    constructor
    · rintro ⟨b', hstring, -⟩
      rw [houtside.retrieveAsString_eq len] at hstring
      cases hstring
    · rintro ⟨hsum, -⟩
      omega

/-- A message of five bytes is taken, and one byte of the next arrives. -/
def staleRun : List BufferOp := [.append [1, 2, 3, 4, 5], .retrieveAsString 5, .append [9]]

open SizedBuffer in
theorem staleRun_exact :
    ∃ b, retrieveMachine.Reaches ⟨List.replicate 16 0, kCheapPrepend, kCheapPrepend⟩ staleRun b ∧
      b.readable = [9] ∧ TakesFirst b 1 := by
  have hrun : (retrieveMachine.run ⟨List.replicate 16 0, kCheapPrepend, kCheapPrepend⟩
      staleRun).map (fun b => (b.readable, readableBytes b)) = some ([9], 1) := by
    decide +kernel
  obtain ⟨b, hb, hstate⟩ := Option.map_eq_some_iff.mp hrun
  rw [Prod.mk.injEq] at hstate
  have hreach := Machine.reaches_of_run hb
  have h₀ : construct 8 = some ⟨List.replicate 16 0, kCheapPrepend, kCheapPrepend⟩ := rfl
  refine ⟨b, hreach, hstate.1, ?_⟩
  refine (retrieveAsString_exact_iff (by decide) h₀ hreach 1).mpr ⟨by decide, ?_⟩
  exact Nat.le_of_eq hstate.2.symm

open SizedBuffer in
/-- **Bytes of an earlier message.** With one readable byte `retrieveAsString(3)` returns that
    byte and two of the message that was taken before. -/
theorem staleRun_returns_stale :
    ∃ b b', retrieveMachine.Reaches ⟨List.replicate 16 0, kCheapPrepend, kCheapPrepend⟩ staleRun b ∧
      b.readable = [9] ∧ retrieveMachine.enabled b (.retrieveAsString 3) = true ∧
      retrieveAsString b 3 = some (b', .returned [9, 2, 3]) ∧ ¬TakesFirst b 3 := by
  have hrun : (retrieveMachine.run ⟨List.replicate 16 0, kCheapPrepend, kCheapPrepend⟩
      staleRun).map (fun b => (b.readable, (retrieveAsString b 3).map Prod.snd)) =
        some ([9], some (.returned [9, 2, 3])) := by
    decide +kernel
  obtain ⟨b, hb, hstate⟩ := Option.map_eq_some_iff.mp hrun
  rw [Prod.mk.injEq] at hstate
  obtain ⟨⟨b', out⟩, hstring, rfl⟩ := Option.map_eq_some_iff.mp hstate.2
  refine ⟨b, b', Machine.reaches_of_run hb, hstate.1, rfl, hstring, ?_⟩
  rintro ⟨b₂, hstring₂, -⟩
  rw [hstring, hstate.1] at hstring₂
  simp at hstring₂

/-! ## §2 The size of the vector -/

namespace SizedBuffer

/-- The content that a call of `ensureWritableBytes(len)` asks the buffer to hold,
    `readableBytes() + len`. -/
def asked (b : Buffer) : BufferOp → Nat
  | .ensureWritableBytes len => readableBytes b + len
  | _ => 0

/-- The peak of a run: the largest value of `readableBytes()` after a call, or of
    `readableBytes() + len` at a call of `ensureWritableBytes(len)`. -/
def peak (b : Buffer) : List BufferOp → Nat
  | [] => 0
  | op :: ops =>
    match bufferMachine.step b op with
    | none => asked b op
    | some b' => max (max (asked b op) (readableBytes b')) (peak b' ops)

variable {b b' : Buffer} {op : BufferOp} {out : Outcome}

/-- No call makes the vector longer than `max_size()`. -/
theorem makeSpace_length_le {len : Nat} (h : makeSpace b len = some (b', out))
    (hmax : b.buffer_.length ≤ maxSize) : b'.buffer_.length ≤ maxSize := by
  unfold makeSpace at h
  split at h
  · split at h
    · rwa [eq_of_call h]
    · rename_i hsize
      rw [eq_of_call h, Buffer.length_resize]
      exact Nat.not_lt.mp hsize
  · obtain ⟨r, hcopy, heq⟩ := Option.map_eq_some_iff.mp h
    rw [Prod.mk.injEq] at heq
    rw [← heq.1, length_of_copyForward hcopy]
    exact hmax

theorem ensureWritableBytes_length_le {len : Nat} (h : ensureWritableBytes b len = some (b', out))
    (hmax : b.buffer_.length ≤ maxSize) : b'.buffer_.length ≤ maxSize := by
  unfold ensureWritableBytes at h
  split at h
  · exact makeSpace_length_le h hmax
  · rwa [eq_of_call h]

/-- What `append` does to the vector is what `ensureWritableBytes` does to it. -/
theorem append_length {data : List Byte} (h : append b data = some (b', out)) :
    ∃ b₁ out₁, ensureWritableBytes b data.length = some (b₁, out₁) ∧
      b'.buffer_.length = b₁.buffer_.length := by
  obtain ⟨⟨b₁, out₁⟩, hensure, hrest⟩ := Option.bind_eq_some_iff.mp h
  refine ⟨b₁, out₁, hensure, ?_⟩
  cases out₁ with
  | threw =>
    rw [Option.some.injEq, Prod.mk.injEq] at hrest
    rw [hrest.1]
  | returned result =>
    obtain ⟨r, hcopy, heq⟩ := Option.map_eq_some_iff.mp hrest
    rw [Prod.mk.injEq] at heq
    rw [← heq.1]
    exact length_of_copyInto hcopy

/-- `readFd` fills the vector, or appends to a full one. -/
theorem readFd_length {bytes : List Byte} (h : readFd b (some bytes) = some (b', out)) :
    b'.buffer_.length = b.buffer_.length ∨
    ∃ r, r.length = b.buffer_.length ∧ writableBytes b < bytes.length ∧
      append { b with buffer_ := r, writerIndex_ := b.buffer_.length }
        (bytes.drop (writableBytes b)) = some (b', out) := by
  obtain ⟨r, hcopy, hrest⟩ := Option.bind_eq_some_iff.mp h
  have hlength := length_of_copyInto hcopy
  split at hrest
  · rw [Option.some.injEq, Prod.mk.injEq] at hrest
    left
    rw [← hrest.1]
    exact hlength
  · rename_i hmore
    exact .inr ⟨r, hlength, Nat.not_le.mp hmore, hrest⟩

theorem exec_length_le (h : exec b op = some (b', out)) (hmax : b.buffer_.length ≤ maxSize) :
    b'.buffer_.length ≤ maxSize := by
  have happend : ∀ (a : Buffer) (data : List Byte), a.buffer_.length ≤ maxSize →
      append a data = some (b', out) → b'.buffer_.length ≤ maxSize := by
    intro a data ha hcall
    obtain ⟨b₁, out₁, hensure, hlength⟩ := append_length hcall
    rw [hlength]
    exact ensureWritableBytes_length_le hensure ha
  have hretrieve : ∀ len, (retrieve b len).buffer_.length ≤ maxSize := by
    intro len
    unfold retrieve
    split <;> exact hmax
  cases op with
  | append data => exact happend b data hmax h
  | ensureWritableBytes len => exact ensureWritableBytes_length_le h hmax
  | retrieve len =>
    rw [eq_of_call h]
    exact hretrieve len
  | retrieveAll =>
    rw [eq_of_call h]
    exact hmax
  | retrieveAsString len => exact (retrieveAsString_returns h).1 ▸ hretrieve len
  | retrieveAllAsString => exact (retrieveAsString_returns h).1 ▸ hretrieve _
  | readFd read =>
    cases read with
    | none =>
      rw [eq_of_call h]
      exact hmax
    | some bytes =>
      rcases readFd_length h with hsame | ⟨r, hr, -, hcall⟩
      · rw [hsame]
        exact hmax
      · exact happend _ _ (hr.symm ▸ hmax) hcall

/-- **Growth.** The vector grows only if the consumed bytes are fewer than the bytes asked for
    and `kCheapPrepend` together, so the new size is at most twice the content asked for. -/
theorem Sized.ensureWritableBytes_length (h : Sized b) {len : Nat} (hlen : len ≤ maxSize)
    (hcall : ensureWritableBytes b len = some (b', out)) :
    b'.buffer_.length ≤ max b.buffer_.length (2 * (b.readableBytes + len) + kCheapPrepend) := by
  obtain ⟨hread, hwrite, hsize⟩ := h.bounds
  unfold SizedBuffer.ensureWritableBytes makeSpace at hcall
  rw [h.spare_eq, h.writableBytes_eq] at hcall
  have hsum : sizeT (len + kCheapPrepend) = len + kCheapPrepend := by
    apply sizeT_eq
    unfold maxSize kCheapPrepend at *
    omega
  have hnew : sizeT (b.writerIndex_ + len) = b.writerIndex_ + len := by
    apply sizeT_eq
    unfold maxSize at hlen
    omega
  rw [hsum, hnew] at hcall
  split at hcall
  · split at hcall
    · rename_i hgrow
      split at hcall
      · rw [eq_of_call hcall]
        exact Nat.le_max_left _ _
      · rw [eq_of_call hcall, Buffer.length_resize]
        apply Nat.le_trans _ (Nat.le_max_right _ _)
        -- the consumed bytes, the content and the new bytes make the vector
        unfold Buffer.writableBytes Buffer.prependableBytes at hgrow
        unfold Buffer.readableBytes
        omega
    · obtain ⟨r, hcopy, heq⟩ := Option.map_eq_some_iff.mp hcall
      rw [Prod.mk.injEq] at heq
      rw [← heq.1, length_of_copyForward hcopy]
      exact Nat.le_max_left _ _
  · rw [eq_of_call hcall]
    exact Nat.le_max_left _ _

/-- After an `append` the content is what the vector had to hold. -/
theorem Sized.append_length (h : Sized b) {data : List Byte} (hdata : data.length ≤ maxSize)
    (hcall : append b data = some (b', out)) :
    b'.buffer_.length ≤ max b.buffer_.length (2 * readableBytes b' + kCheapPrepend) := by
  rcases append_spec h hdata with ⟨hthrow, -⟩ | ⟨b₂, hreturn, hsized, hreadable⟩
  · rw [hcall, Option.some.injEq, Prod.mk.injEq] at hthrow
    rw [hthrow.1]
    exact Nat.le_max_left _ _
  · rw [hcall, Option.some.injEq, Prod.mk.injEq] at hreturn
    obtain ⟨rfl, -⟩ := hreturn
    obtain ⟨b₁, out₁, hensure, hlength⟩ := SizedBuffer.append_length hcall
    have hcontent : b'.readableBytes = b.readableBytes + data.length := by
      rw [← hsized.wf.length_readable, hreadable, List.length_append, h.wf.length_readable]
    rw [hlength, hsized.readableBytes_eq, hcontent]
    exact h.ensureWritableBytes_length hdata hensure

/-- **What a call does to the size of the vector**: it is bounded by the content after the call,
    or by the content that was asked for. -/
theorem Sized.exec_length (h : Sized b) (he : bufferMachine.enabled b op = true)
    (hcall : exec b op = some (b', out)) :
    b'.buffer_.length ≤ max b.buffer_.length
        (2 * max (asked b op) (readableBytes b') + kCheapPrepend) ∨
      maxSize ≤ 2 * asked b op + kCheapPrepend := by
  have hsame : b'.buffer_.length = b.buffer_.length → b'.buffer_.length ≤ max b.buffer_.length
      (2 * max (asked b op) (readableBytes b') + kCheapPrepend) := by
    intro heq
    rw [heq]
    exact Nat.le_max_left _ _
  have hretrieve : ∀ len, (SizedBuffer.retrieve b len).buffer_.length = b.buffer_.length := by
    intro len
    unfold SizedBuffer.retrieve
    split <;> rfl
  cases op with
  | append data =>
    left
    have hlength := h.append_length (of_decide_eq_true he) hcall
    simp only [asked]
    omega
  | ensureWritableBytes len =>
    -- a length that is not a possible size is a peak that no vector exceeds
    simp only [asked, h.readableBytes_eq]
    rcases Nat.lt_or_ge maxSize len with hlarge | hlen
    · right
      omega
    · left
      have hlength := h.ensureWritableBytes_length hlen hcall
      omega
  | retrieve len =>
    rw [eq_of_call hcall] at hsame ⊢
    exact .inl (hsame (hretrieve len))
  | retrieveAll =>
    rw [eq_of_call hcall] at hsame ⊢
    exact .inl (hsame rfl)
  | retrieveAsString len =>
    exact .inl (hsame ((retrieveAsString_returns hcall).1 ▸ hretrieve len))
  | retrieveAllAsString =>
    exact .inl (hsame ((retrieveAsString_returns hcall).1 ▸ hretrieve _))
  | readFd read =>
    left
    cases read with
    | none =>
      rw [eq_of_call hcall] at hsame ⊢
      exact hsame rfl
    | some bytes =>
      rcases readFd_length hcall with heq | ⟨r, hr, hmore, hrest⟩
      · exact hsame heq
      · obtain ⟨hread, hwrite, hsize⟩ := h.bounds
        -- the vector is full, and what is left of the stack buffer is appended
        have hfull : Sized { b with buffer_ := r, writerIndex_ := b.buffer_.length } :=
          ⟨⟨h.wf.prepend_le, hread.trans hwrite, Nat.le_of_eq hr.symm⟩, hr.symm ▸ h.size_le⟩
        have hdrop : (bytes.drop (writableBytes b)).length ≤ maxSize := by
          have hbytes : bytes.length ≤ offered b := of_decide_eq_true he
          rw [List.length_drop]
          unfold offered Buffer.extrabufSize at hbytes
          unfold maxSize
          split at hbytes <;> omega
        have hlength : b'.buffer_.length ≤ max r.length (2 * readableBytes b' + kCheapPrepend) :=
          hfull.append_length hdrop hrest
        simp only [asked]
        omega

/-- The vector is within a bound, or the bound is beyond `max_size()`. -/
structure Within (bound : Nat) (b : Buffer) : Prop where
  size_le : b.buffer_.length ≤ maxSize
  within : maxSize ≤ bound ∨ Sized b ∧ b.buffer_.length ≤ bound

theorem Within.length_le {bound : Nat} (h : Within bound b) : b.buffer_.length ≤ bound := by
  rcases h.within with hlarge | ⟨-, hle⟩
  · exact h.size_le.trans hlarge
  · exact hle

/-- A call keeps the vector within the bound, if the bound grows with the peak. -/
theorem Within.step {bound : Nat} (h : Within bound b) (he : bufferMachine.enabled b op = true)
    (hs : bufferMachine.step b op = some b') :
    Within (max bound (2 * max (asked b op) (readableBytes b') + kCheapPrepend)) b' := by
  obtain ⟨⟨b₁, out⟩, hcall, heq⟩ := Option.map_eq_some_iff.mp hs
  obtain rfl : b₁ = b' := heq
  refine ⟨exec_length_le hcall h.size_le, ?_⟩
  rcases h.within with hlarge | ⟨hsized, hle⟩
  · left
    omega
  · obtain ⟨b₂, out₂, hcall₂, hkeeps, -⟩ := exec_spec hsized he
    rw [hcall, Option.some.injEq, Prod.mk.injEq] at hcall₂
    obtain ⟨rfl, rfl⟩ := hcall₂
    rcases hsized.exec_length he hcall with hlength | hlarge
    · by_cases hc : noWrap b op = true
      · right
        refine ⟨(hkeeps hc).1, ?_⟩
        omega
      · -- a size that wraps was asked for by `ensureWritableBytes`
        left
        cases op with
        | ensureWritableBytes len =>
          obtain ⟨-, hwrite, hsize⟩ := hsized.bounds
          simp only [noWrap, Bool.or_eq_true, decide_eq_true_eq, not_or] at hc
          simp only [asked]
          unfold maxSize
          omega
        | _ => exact absurd rfl hc
    · left
      omega

/-- A run keeps the vector within the bound that its peak gives. -/
theorem Within.run {bound : Nat} {ops : List BufferOp} (h : Within bound b)
    (hrun : bufferMachine.Reaches b ops b') :
    Within (max bound (2 * peak b ops + kCheapPrepend)) b' := by
  induction ops generalizing b bound with
  | nil =>
    obtain rfl := hrun.eq_of_nil
    refine ⟨h.size_le, h.within.imp ?_ (And.imp_right ?_)⟩ <;> intro hle <;> omega
  | cons op ops ih =>
    obtain ⟨b₁, he, hs, hrest⟩ := hrun.head
    obtain ⟨hsize, hwithin⟩ := ih (h.step he hs) hrest
    have hpeak : peak b (op :: ops) =
        max (max (asked b op) (readableBytes b₁)) (peak b₁ ops) := by
      rw [peak, hs]
    rw [hpeak]
    refine ⟨hsize, hwithin.imp ?_ (And.imp_right ?_)⟩ <;> intro hle <;> omega

end SizedBuffer

open SizedBuffer in
/-- **The vector is bounded by the peak of the content**, however many bytes pass through the
    buffer. -/
theorem buffer_size_bounded {initialSize : Nat} {b₀ : Buffer}
    (h₀ : construct initialSize = some b₀) {ops : List BufferOp} {b : Buffer}
    (h : bufferMachine.Reaches b₀ ops b) :
    b.buffer_.length ≤
      max (kCheapPrepend + initialSize) (2 * peak b₀ ops + kCheapPrepend) := by
  have hwithin : Within (kCheapPrepend + initialSize) b₀ := by
    have hsized : kCheapPrepend + initialSize < 2 ^ 64 → Sized b₀ := by
      intro hsum
      exact (construct_spec (by omega) h₀).2.1 hsum
    have hlength : b₀.buffer_.length = sizeT (kCheapPrepend + initialSize) ∧
        b₀.buffer_.length ≤ maxSize := by
      unfold construct at h₀
      split at h₀
      · cases h₀
      · rename_i hmax
        rw [Option.some.injEq] at h₀
        rw [← h₀, List.length_replicate]
        exact ⟨rfl, Nat.not_lt.mp hmax⟩
    refine ⟨hlength.2, ?_⟩
    rcases Nat.lt_or_ge (kCheapPrepend + initialSize) (2 ^ 64) with hsum | hwrap
    · right
      refine ⟨hsized hsum, ?_⟩
      rw [hlength.1, sizeT_eq hsum]
    · left
      unfold maxSize
      omega
  exact (hwithin.run h).length_le

/-- Ten bytes grow a vector whose first five bytes are consumed. -/
def growRun : List BufferOp :=
  [.append [1, 2, 3, 4, 5, 6, 7, 8], .retrieve 5, .append [9, 10, 11, 12, 13, 14, 15, 16, 17, 18]]

open SizedBuffer in
/-- The consumed bytes are kept, and the vector stays within twice its content. -/
theorem growRun_bounded :
    ∃ b, bufferMachine.Reaches ⟨List.replicate 16 0, kCheapPrepend, kCheapPrepend⟩ growRun b ∧
      b.readerIndex_ = 13 ∧ b.buffer_.length = 26 ∧ b.buffer_.length ≤ 34 := by
  have hrun : (bufferMachine.run ⟨List.replicate 16 0, kCheapPrepend, kCheapPrepend⟩
      growRun).map (fun b => (b.readerIndex_, b.buffer_.length)) = some (13, 26) := by
    decide +kernel
  have hpeak : peak ⟨List.replicate 16 0, kCheapPrepend, kCheapPrepend⟩ growRun = 13 := by
    decide +kernel
  obtain ⟨b, hb, hstate⟩ := Option.map_eq_some_iff.mp hrun
  rw [Prod.mk.injEq] at hstate
  have hreach := Machine.reaches_of_run hb
  have h₀ : construct 8 = some ⟨List.replicate 16 0, kCheapPrepend, kCheapPrepend⟩ := rfl
  have hbound := buffer_size_bounded h₀ hreach
  rw [hpeak] at hbound
  exact ⟨b, hreach, hstate.1, hstate.2, hbound⟩

end RainWebServer.Net
