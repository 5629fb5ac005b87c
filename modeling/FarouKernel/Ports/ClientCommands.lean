import FarouKernel.Ports.ClientInput

/-!
# Commands and the cutting of the stream

`recv_full` ends a message with the first chunk that holds a newline, whatever
follows the newline in the chunk.  On lines shorter than the buffer its messages
are therefore those of `Verified.messagesFrom`, and they are the lines of the
stream exactly if no chunk goes on after a newline.

The induction runs over the chunks with the buffer filled so far.  A chunk
without a newline never fills the buffer, because the bytes received so far are
then part of one line.
-/

namespace FarouKernel.Ports.Net

open Verified

/-- The byte ends a line. -/
def isNewline (b : UInt8) : Bool := b == newline

theorem any_isNewline {c : List UInt8} : c.any isNewline = true ↔ newline ∈ c := by
  simp [isNewline, List.any_eq_true]

/-- Every line, with its newline, is shorter than the buffer: so is every stretch
without a newline, with one byte more. -/
def ShortLines (len : Nat) (s : List UInt8) : Prop :=
  ∀ w, w <:+: s → newline ∉ w → w.length + 1 < len

/-- The chunks can be the results of the `recv` calls: none is empty or longer
than the space that is left, with `received` bytes in the buffer before the first. -/
def Returnable (len : Nat) : Nat → List (List UInt8) → Prop
  | _, [] => True
  | received, c :: cs =>
    c ≠ [] ∧ received + c.length ≤ len - 1 ∧
      Returnable len
        (if newline ∈ c ∨ received + c.length = len - 1 then 0 else received + c.length) cs

/-- What the caller collects after a call of `recv_full`. -/
def collect (next : List SockEvent → Option (List (List UInt8))) :
    Option (RecvStatus × List UInt8 × List SockEvent) → Option (List (List UInt8))
  | none => none
  | some (.ok, buffer, socket) => (next socket).map (buffer :: ·)
  | some (.timeout, _, socket) => next socket
  | some (.eof, _, _) => some []
  | some (.error, _, _) => some []

/-- The buffers of successive calls of `recv_full`. -/
def receivedBuffers (bufSize : Nat) : Nat → List SockEvent → Option (List (List UInt8))
  | 0, _ => none
  | fuel + 1, socket => collect (receivedBuffers bufSize fuel) (recvFull bufSize socket)

/-- The list up to and with its first element that passes the test. -/
def throughFirst {α : Type} (p : α → Bool) : List α → List α
  | [] => []
  | x :: xs => if p x = true then [x] else x :: throughFirst p xs

section Receive

variable {len fuel : Nat} {buffer c : List UInt8} {cs chunks : List (List UInt8)}
  {rest : List SockEvent}

/-- A chunk that fits ends the call if it holds a newline. -/
theorem recvLoop_chunk (hc : c ≠ []) (hfit : buffer.length + c.length ≤ len - 1) :
    recvLoop len buffer (.data c :: rest) =
      if newline ∈ c then some (.ok, buffer ++ c, rest) else recvLoop len (buffer ++ c) rest := by
  have hpos := List.length_pos_iff.mpr hc
  have hroom : buffer.length < len - 1 := by omega
  have hwhole : ¬ len - buffer.length - 1 < c.length := by omega
  rw [recvLoop, if_pos hroom, if_neg hwhole]
  exact hc

theorem recvLoop_closed (hroom : buffer.length < len - 1) :
    recvLoop len buffer (socketOf []) = some (.eof, buffer, []) := by
  show recvLoop len buffer [.data []] = _
  rw [recvLoop, if_pos hroom]

/-- Bytes without a newline leave room in the buffer. -/
theorem ShortLines.room {s : List UInt8} (h : ShortLines len (buffer ++ s))
    (hbuffer : newline ∉ buffer) : buffer.length + 1 < len :=
  h buffer (List.prefix_append buffer s).isInfix hbuffer

theorem ShortLines.suffix {s t : List UInt8} (h : ShortLines len (t ++ s)) : ShortLines len s :=
  fun w hw hnone => h w (hw.trans (List.suffix_append t s).isInfix) hnone

/-- **The buffers are the messages.** -/
theorem collect_recvLoop (hfuel : chunks.length ≤ fuel) (hbuffer : newline ∉ buffer)
    (hshort : ShortLines len (buffer ++ chunks.flatten))
    (hchunks : Returnable len buffer.length chunks) :
    collect (receivedBuffers len fuel) (recvLoop len buffer (socketOf chunks)) =
      some (messagesFrom isNewline buffer chunks) := by
  induction chunks generalizing buffer fuel with
  | nil =>
    have hroom := hshort.room hbuffer
    rw [recvLoop_closed (by omega)]
    rfl
  | cons c cs ih =>
    rcases hchunks with ⟨hc, hfit, hrest⟩
    rw [List.flatten_cons] at hshort
    rw [List.length_cons] at hfuel
    show collect _ (recvLoop len buffer (.data c :: socketOf cs)) = _
    rw [recvLoop_chunk hc hfit, messagesFrom]
    by_cases hnewline : newline ∈ c
    · rw [if_pos hnewline, if_pos (any_isNewline.mpr hnewline)]
      rw [if_pos (Or.inl hnewline)] at hrest
      cases fuel with
      | zero => omega
      | succ fuel =>
        have hnext := ih (Nat.le_of_succ_le_succ hfuel) List.not_mem_nil hshort.suffix.suffix hrest
        show (receivedBuffers len (fuel + 1) (socketOf cs)).map _ = _
        rw [receivedBuffers, recvFull, hnext]
        rfl
    · rw [if_neg hnewline, if_neg (fun h => hnewline (any_isNewline.mp h))]
      have hbuffer' : newline ∉ buffer ++ c := by simp [hbuffer, hnewline]
      rw [← List.append_assoc] at hshort
      have hroom := hshort.room hbuffer'
      rw [List.length_append] at hroom
      rw [if_neg (not_or.mpr ⟨hnewline, by omega⟩), ← List.length_append] at hrest
      exact ih (by omega) hbuffer' hshort hrest

/-- Chunks that end with their newline always fit. -/
theorem returnable_of_sepLast (hbuffer : newline ∉ buffer)
    (hshort : ShortLines len (buffer ++ chunks.flatten))
    (hchunks : ∀ c ∈ chunks, c ≠ [] ∧ SepLast isNewline c) :
    Returnable len buffer.length chunks := by
  induction chunks generalizing buffer with
  | nil => trivial
  | cons c cs ih =>
    rw [List.forall_mem_cons] at hchunks
    rcases hchunks with ⟨⟨hc, hlast⟩, hrest⟩
    rw [List.flatten_cons] at hshort
    have hstart : newline ∉ c.dropLast := by
      intro hmem
      have hnot := hlast newline hmem
      simp [isNewline] at hnot
    -- the chunk without its last byte belongs to the line of the buffer
    have hinfix : buffer ++ c.dropLast <:+: buffer ++ (c ++ cs.flatten) := by
      rw [← List.append_assoc]
      apply List.IsPrefix.isInfix
      apply List.IsPrefix.trans _ (List.prefix_append _ _)
      exact (List.prefix_append_right_inj buffer).mpr (List.dropLast_prefix c)
    have hroom := hshort _ hinfix (by simp [hbuffer, hstart])
    have hpos := List.length_pos_iff.mpr hc
    rw [List.length_append, List.length_dropLast] at hroom
    refine ⟨hc, by omega, ?_⟩
    by_cases hnewline : newline ∈ c
    · rw [if_pos (Or.inl hnewline)]
      exact ih List.not_mem_nil hshort.suffix.suffix hrest
    · have hbuffer' : newline ∉ buffer ++ c := by simp [hbuffer, hnewline]
      rw [← List.append_assoc] at hshort
      have hroom' := hshort.room hbuffer'
      rw [List.length_append] at hroom'
      rw [if_neg (not_or.mpr ⟨hnewline, by omega⟩), ← List.length_append]
      exact ih hbuffer' hshort hrest

/-- `handle_client` works on the buffers until one of them is `exit` or `quit`. -/
theorem handleClient_of_receivedBuffers {socket : List SockEvent} {buffers : List (List UInt8)}
    (h : receivedBuffers len fuel socket = some buffers) :
    handleClient len fuel socket = some (throughFirst isExit (buffers.map sanitizeInput)) := by
  induction fuel generalizing socket buffers with
  | zero => cases h
  | succ fuel ih =>
    rw [receivedBuffers] at h
    rw [handleClient]
    cases hrecv : recvFull len socket with
    | none =>
      rw [hrecv] at h
      cases h
    | some r =>
      rcases r with ⟨status, buffer, next⟩
      rw [hrecv] at h
      cases status with
      | ok =>
        rcases Option.map_eq_some_iff.mp h with ⟨others, hothers, rfl⟩
        simp only [List.map_cons, throughFirst]
        split
        · rfl
        · rw [ih hothers]
          rfl
      | eof =>
        cases h
        rfl
      | timeout => exact ih h
      | error =>
        cases h
        rfl

end Receive

/-- **Commands and chunks.**  For a stream of lines shorter than the buffer, cut
into any chunks that `recv` can return: the buffers of `recv_full` are the lines
of the stream exactly if no chunk goes on after a newline; and then
`handle_client` gets the sanitized lines, one by one, up to the first `exit` or
`quit`, so any two such cuttings of the stream give it the same commands. -/
theorem commands_of_chunks_iff (bufSize : Nat) (chunks : List (List UInt8))
    (hshort : ShortLines bufSize chunks.flatten) (hchunks : Returnable bufSize 0 chunks)
    (fuel : Nat) (hfuel : chunks.length < fuel) :
    (receivedBuffers bufSize fuel (socketOf chunks) = some (lines isNewline chunks.flatten) ↔
        ∀ c ∈ chunks, SepLast isNewline c) ∧
      ((∀ c ∈ chunks, SepLast isNewline c) →
        handleClient bufSize fuel (socketOf chunks) =
          some (throughFirst isExit ((lines isNewline chunks.flatten).map sanitizeInput)) ∧
        ∀ chunks', chunks'.flatten = chunks.flatten →
          (∀ c ∈ chunks', c ≠ [] ∧ SepLast isNewline c) → ∀ fuel', chunks'.length < fuel' →
          handleClient bufSize fuel' (socketOf chunks') =
            handleClient bufSize fuel (socketOf chunks)) := by
  have hbuffers : ∀ (chunks : List (List UInt8)) (fuel : Nat), chunks.length < fuel →
      ShortLines bufSize chunks.flatten → Returnable bufSize 0 chunks →
      receivedBuffers bufSize fuel (socketOf chunks) =
        some (messagesFrom isNewline [] chunks) := by
    intro chunks fuel hfuel hshort hchunks
    cases fuel with
    | zero => omega
    | succ fuel => exact collect_recvLoop (by omega) List.not_mem_nil hshort hchunks
  have hcommands : ∀ (chunks : List (List UInt8)) (fuel : Nat), chunks.length < fuel →
      ShortLines bufSize chunks.flatten → Returnable bufSize 0 chunks →
      (∀ c ∈ chunks, SepLast isNewline c) →
      handleClient bufSize fuel (socketOf chunks) =
        some (throughFirst isExit ((lines isNewline chunks.flatten).map sanitizeInput)) := by
    intro chunks fuel hfuel hshort hchunks hlast
    apply handleClient_of_receivedBuffers
    rw [hbuffers chunks fuel hfuel hshort hchunks]
    exact congrArg some ((messagesFrom_eq_linesFrom_iff [] chunks).mpr hlast)
  constructor
  · rw [hbuffers chunks fuel hfuel hshort hchunks, Option.some.injEq]
    exact messagesFrom_eq_linesFrom_iff [] chunks
  · intro hlast
    refine ⟨hcommands chunks fuel hfuel hshort hchunks hlast, ?_⟩
    intro chunks' hflatten hchunks' fuel' hfuel'
    rw [← hflatten] at hshort
    have hreturnable : Returnable bufSize ([] : List UInt8).length chunks' :=
      returnable_of_sepLast List.not_mem_nil hshort hchunks'
    rw [hcommands chunks' fuel' hfuel' hshort hreturnable fun c hc => (hchunks' c hc).2,
      hcommands chunks fuel hfuel (hflatten ▸ hshort) hchunks hlast, hflatten]

/-- `help` in two chunks and `info` in one. -/
def helpInfoChunks : List (List UInt8) := [[104, 101], [108, 112, 10], [105, 110, 102, 111, 10]]

/-- The two lines give the two commands. -/
theorem commands_of_chunks_iff_help :
    handleClient 4096 4 (socketOf helpInfoChunks) =
      some [[104, 101, 108, 112], [105, 110, 102, 111]] := by
  have hshort : ShortLines 4096 helpInfoChunks.flatten := by
    intro w hw _
    have hle := hw.length_le
    have hlength : helpInfoChunks.flatten.length = 10 := by decide
    omega
  have hlast : ∀ c ∈ helpInfoChunks, SepLast isNewline c := by
    unfold SepLast
    decide +kernel
  have hreturnable : Returnable 4096 ([] : List UInt8).length helpInfoChunks :=
    returnable_of_sepLast List.not_mem_nil hshort fun c hc =>
      ⟨(by decide : ∀ c ∈ helpInfoChunks, c ≠ []) c hc, hlast c hc⟩
  have hcommands := (commands_of_chunks_iff 4096 helpInfoChunks hshort hreturnable 4
    (by decide)).2 hlast
  exact hcommands.1.trans (by decide)

/-- The same two lines in one chunk are one command. -/
theorem commands_depend_on_chunks :
    [[104, 101, 108, 112, 10], [105, 110, 102, 111, 10]].flatten =
        ([[104, 101, 108, 112, 10, 105, 110, 102, 111, 10]].flatten : List UInt8) ∧
      handleClient 4096 4 (socketOf [[104, 101, 108, 112, 10], [105, 110, 102, 111, 10]]) =
        some [[104, 101, 108, 112], [105, 110, 102, 111]] ∧
      handleClient 4096 4 (socketOf [[104, 101, 108, 112, 10, 105, 110, 102, 111, 10]]) =
        some [[104, 101, 108, 112, 10, 105, 110, 102, 111]] := by
  decide

end FarouKernel.Ports.Net
