import FarouKernel.Ports.FileModel
import FarouKernel.Verified.StreamLines

/-!
# `fs/file.cpp`: reading whole files

`readAll` and `readLines` save the position, go to the beginning, read to the end and go
back.  All of that is refused by a stream whose flags are set, and they are cleared at
the end only: `readAll` then throws, and `readLines` returns no lines.

`Cursor` is what a reader has in mind: a position, and whether the last read has come to
the end of the file.  `Follows` says that the object agrees with it, every call keeps it,
and so the calls that work are known from the calls before them.

What `writeLines` writes is read back by `readLines` up to a carriage return at the end
of a line, which is taken for a part of the line end.
-/

namespace FarouKernel.Ports.Files

open Verified

/-- The lines of a text, with either line end. -/
def linesOf (content : List UInt8) : List (List UInt8) :=
  (textLines newline content).map File.stripCarriageReturn

/-! ## Reading everything -/

variable {f : File} {s : FileStream}

namespace File

/-- Open for reading only. -/
structure Reading (f : File) : Prop where
  isOpen : f.isOpen = true
  mode : f.mode = .read

theorem Reading.requireReading (h : f.Reading) : f.requireReading = .ok () := by
  unfold File.requireReading
  rw [h.isOpen, h.mode]
  rfl

theorem withStream_self (f : File) : f.withStream f.stream = f := rfl

theorem readAll_good (h : f.Reading) (hgood : f.stream.good = true) :
    f.readAll = (.ok f.stream.content, f) := by
  have hend : (f.stream.moved f.stream.content.length).good = true := hgood
  have hsize : ¬((f.stream.content.length : Int) < 0) := by omega
  have hzero : (f.stream.moved f.stream.content.length).seekg 0 = f.stream.moved 0 :=
    FileStream.seekg_good hend 0
  unfold readAll
  rw [h.requireReading]
  simp only [FileStream.tellg_good hgood, FileStream.seekg_good hgood,
    FileStream.tellg_good hend, FileStream.moved_pos]
  rw [hzero, if_neg hsize, FileStream.drain, FileStream.rest_zero]
  exact congrArg _ (congrArg f.withStream (FileStream.seekg_back hgood _))

theorem readAll_not_good (h : f.Reading) (hgood : f.stream.good = false) :
    f.readAll = (.error .lengthError, f.withStream { f.stream.refused with eofbit := false }) := by
  have hrefused : { f.stream.refused with eofbit := false } =
      ({ f.stream with eofbit := false } : FileStream).refused := rfl
  have hnot := FileStream.refused_not_good { f.stream with eofbit := false }
  unfold readAll
  rw [h.requireReading]
  simp only [FileStream.tellg_not_good hgood, FileStream.seekg_refused]
  rw [hrefused, FileStream.tellg_not_good hnot]
  rfl

theorem linesLoop_stop (rounds : Nat) {s' : FileStream} {line : List UInt8}
    (hrun : s.getline newline = (line, s')) (hfail : s'.fail = true) :
    linesLoop (rounds + 1) s = ([], s') := by
  rw [linesLoop, hrun]
  exact if_pos hfail

theorem linesLoop_line (rounds : Nat) {s' s'' : FileStream} {line : List UInt8}
    {lines : List (List UInt8)} (hrun : s.getline newline = (line, s')) (hfail : s'.fail = false)
    (hrest : linesLoop rounds s' = (lines, s'')) :
    linesLoop (rounds + 1) s = (stripCarriageReturn line :: lines, s'') := by
  rw [linesLoop, hrun]
  simp only [hfail, hrest, Bool.false_eq_true, if_false]

/-- The loop of `readLines` over a good stream takes all lines that are left and ends
with a failed `getline`. -/
theorem linesLoop_good (rounds : Nat) (hgood : s.good = true) (hrounds : s.rest.length < rounds) :
    ∃ s' p, linesLoop rounds s = (linesOf s.rest, s') ∧ s'.fail = true ∧
      s'.clear = s.clear.moved p := by
  refine FileStream.lines_induction
    (P := fun s lines => ∀ rounds, s.rest.length < rounds → ∃ s' p,
      linesLoop rounds s = (lines.map stripCarriageReturn, s') ∧ s'.fail = true ∧
        s'.clear = s.clear.moved p)
    ?_ ?_ hgood rounds hrounds
  · intro s line s' hrun hfail rounds hrounds
    obtain ⟨n, rfl⟩ : ∃ n, rounds = n + 1 := ⟨rounds - 1, by omega⟩
    obtain ⟨p, hclear⟩ := FileStream.clear_getline hrun
    exact ⟨s', p, linesLoop_stop n hrun hfail, hfail, hclear⟩
  · intro s line s' lines hrun hfail hless ih rounds hrounds
    obtain ⟨n, rfl⟩ : ∃ n, rounds = n + 1 := ⟨rounds - 1, by omega⟩
    obtain ⟨q, hclear⟩ := FileStream.clear_getline hrun
    obtain ⟨s'', p, hloop, hend, hclear'⟩ := ih n (by omega)
    rw [hclear, FileStream.moved_moved] at hclear'
    exact ⟨s'', p, linesLoop_line n hrun hfail hloop, hend, hclear'⟩

theorem readLines_good (h : f.Reading) (hgood : f.stream.good = true) :
    f.readLines = (.ok (linesOf f.stream.content), f) := by
  have hzero : f.stream.seekg 0 = f.stream.moved 0 := FileStream.seekg_good hgood 0
  have hstart : (f.stream.moved 0).good = true := hgood
  have hrest : (f.stream.moved 0).rest = f.stream.content := FileStream.rest_zero f.stream
  obtain ⟨s', p, hloop, _, hclear⟩ := linesLoop_good
    (f.stream.content.length + 1) hstart (by rw [hrest]; omega)
  unfold readLines
  rw [h.requireReading]
  simp only [FileStream.tellg_good hgood, hzero, FileStream.moved_content, hloop, hrest]
  rw [hclear, FileStream.clear_of_good hstart, FileStream.moved_moved]
  have hback := FileStream.seekg_back hgood p
  rw [FileStream.clear_of_good (s := f.stream.moved p) hgood] at hback
  rw [hback, withStream_self]

theorem readLines_not_good (h : f.Reading) (hgood : f.stream.good = false) :
    f.readLines = (.ok [], f.withStream { f.stream.clear with failbit := true }) := by
  have hrefused : { f.stream.refused with eofbit := false } =
      ({ f.stream with eofbit := false } : FileStream).refused := rfl
  have hnot := FileStream.refused_not_good { f.stream with eofbit := false }
  unfold readLines
  rw [h.requireReading]
  simp only [FileStream.tellg_not_good hgood, FileStream.seekg_refused, hrefused]
  rw [linesLoop_stop _ (FileStream.getline_not_good newline hnot) rfl,
    FileStream.seekg_negative (by omega)]
  rfl

end File

/-! ## Sequences of calls -/

/-- The methods that read. -/
inductive Call where
  | readLine
  | readBytes (count : Nat)
  | seek (offset : Int) (origin : SeekOrigin)
  | readLines
  | readAll
deriving DecidableEq

/-- The object after a call. -/
def File.call (f : File) : Call → File
  | .readLine => f.readLine.2
  | .readBytes count => (f.readBytes count).2
  | .seek offset origin => (f.seek offset origin).2
  | .readLines => f.readLines.2
  | .readAll => f.readAll.2

/-- The object after a sequence of calls. -/
def File.calls (f : File) (calls : List Call) : File := calls.foldl File.call f

/-- A position in a file, and whether no read has come to the end since the last
seek, and that seek was possible. -/
structure Cursor where
  pos : Nat
  clean : Bool

namespace Cursor

variable (content : List UInt8)

/-- Behind the next line end, or at the end of the file. -/
def afterLine (c : Cursor) : Cursor :=
  let rest := content.drop c.pos
  if newline ∈ rest then ⟨c.pos + ((rest.takeWhile (· ≠ newline)).length + 1), true⟩
  else ⟨c.pos + rest.length, false⟩

/-- Behind so many bytes, or at the end of the file. -/
def afterBytes (count : Nat) (c : Cursor) : Cursor :=
  let rest := content.drop c.pos
  if count ≤ rest.length then ⟨c.pos + count, true⟩ else ⟨c.pos + rest.length, false⟩

/-- At a position, unless that is negative. -/
def seekTo (target : Int) (c : Cursor) : Cursor :=
  if 0 ≤ target then ⟨target.toNat, true⟩ else ⟨c.pos, false⟩

/-- The cursor after a call. -/
def step (c : Cursor) : Call → Cursor
  | .readLine => if c.clean = true then c.afterLine content else c
  | .readBytes count => if c.clean = true then c.afterBytes content count else c
  | .seek offset .begin => c.seekTo offset
  | .seek offset .current => c.seekTo (c.pos + offset)
  | .seek offset .ending => c.seekTo (content.length + offset)
  | .readLines => c
  | .readAll => c

/-- The cursor after a sequence of calls on a file just opened. -/
def after (calls : List Call) : Cursor := calls.foldl (step content) ⟨0, true⟩

end Cursor

/-- The object agrees with the cursor. -/
structure Follows (content : List UInt8) (f : File) (c : Cursor) : Prop where
  reading : f.Reading
  content_eq : f.stream.content = content
  pos_eq : f.stream.pos = c.pos
  good_eq : f.stream.good = c.clean

theorem follows_open (content : List UInt8) :
    Follows content (File.openFile .read content) ⟨0, true⟩ :=
  ⟨⟨rfl, rfl⟩, rfl, rfl, rfl⟩

namespace Follows

variable {content : List UInt8} {f : File} {c : Cursor}

section

variable (h : Follows content f c)

include h

theorem withStream (s : FileStream) {c' : Cursor} (hcontent : s.content = content)
    (hpos : s.pos = c'.pos) (hgood : s.good = c'.clean) : Follows content (f.withStream s) c' :=
  ⟨⟨h.reading.isOpen, h.reading.mode⟩, hcontent, hpos, hgood⟩

theorem rest_eq : f.stream.rest = content.drop c.pos := by
  rw [FileStream.rest, h.content_eq, h.pos_eq]

/-- A stream that is not good refuses to read and stays where it is. -/
theorem refused (hclean : c.clean = false) : Follows content (f.withStream f.stream.refused) c :=
  h.withStream _ h.content_eq h.pos_eq ((FileStream.refused_not_good f.stream).trans hclean.symm)

theorem readLine : Follows content f.readLine.2 (c.step content .readLine) := by
  have hrun : f.readLine.2 = f.withStream (f.stream.getline newline).2 := by
    unfold File.readLine
    rw [h.reading.requireReading]
  rw [hrun, Cursor.step]
  cases hclean : c.clean with
  | false =>
    have hgood : f.stream.good = false := h.good_eq.trans hclean
    rw [if_neg (by simp), FileStream.getline_not_good newline hgood]
    exact h.refused hclean
  | true =>
    have hgood : f.stream.good = true := h.good_eq.trans hclean
    rw [if_pos rfl, Cursor.afterLine, ← h.rest_eq, ← h.pos_eq]
    by_cases hmem : newline ∈ f.stream.rest
    · rw [FileStream.getline_mem hgood hmem]
      simp only [if_pos hmem]
      exact h.withStream _ h.content_eq rfl hgood
    · rw [FileStream.getline_end hgood hmem]
      simp only [if_neg hmem]
      exact h.withStream _ h.content_eq rfl rfl

theorem readBytes (count : Nat) :
    Follows content (f.readBytes count).2 (c.step content (.readBytes count)) := by
  have hrun : (f.readBytes count).2 = f.withStream (f.stream.read count).2 := by
    unfold File.readBytes
    rw [h.reading.requireReading]
  rw [hrun, Cursor.step]
  cases hclean : c.clean with
  | false =>
    have hgood : f.stream.good = false := h.good_eq.trans hclean
    rw [if_neg (by simp), FileStream.read_not_good count hgood]
    exact h.refused hclean
  | true =>
    have hgood : f.stream.good = true := h.good_eq.trans hclean
    rw [if_pos rfl, Cursor.afterBytes, ← h.rest_eq, ← h.pos_eq]
    by_cases hcount : count ≤ f.stream.rest.length
    · rw [FileStream.read_enough hgood hcount]
      simp only [if_pos hcount]
      exact h.withStream _ h.content_eq rfl hgood
    · rw [FileStream.read_short hgood (by omega)]
      simp only [if_neg hcount]
      exact h.withStream _ h.content_eq rfl rfl

theorem seekTo (target : Int) :
    Follows content (f.withStream (f.stream.clear.seekg target)) (c.seekTo target) := by
  unfold Cursor.seekTo
  by_cases htarget : 0 ≤ target
  · obtain ⟨n, rfl⟩ := Int.eq_ofNat_of_zero_le htarget
    rw [if_pos htarget, FileStream.seekg_good (FileStream.clear_good f.stream)]
    exact h.withStream _ h.content_eq rfl rfl
  · rw [if_neg htarget, FileStream.seekg_negative (by omega)]
    exact h.withStream _ h.content_eq h.pos_eq rfl

theorem seek (offset : Int) (origin : SeekOrigin) :
    Follows content (f.seek offset origin).2 (c.step content (.seek offset origin)) := by
  have hrun : (f.seek offset origin).2 =
      f.withStream (f.stream.clear.seekg (origin.target offset f.stream.clear)) := by
    unfold File.seek
    have hreads : Mode.read.reads = true := rfl
    have hwrites : Mode.read.writes = false := rfl
    rw [if_neg (by simp [h.reading.isOpen]), h.reading.mode]
    simp only [hreads, hwrites, if_true, Bool.false_eq_true, false_and, if_false]
    split <;> rfl
  rw [hrun]
  cases origin with
  | begin => exact h.seekTo offset
  | current =>
    have htarget : SeekOrigin.current.target offset f.stream.clear = c.pos + offset := by
      rw [← h.pos_eq]
      rfl
    rw [htarget]
    exact h.seekTo _
  | ending =>
    have htarget : SeekOrigin.ending.target offset f.stream.clear = content.length + offset := by
      rw [← h.content_eq]
      rfl
    rw [htarget]
    exact h.seekTo _

theorem readLines : Follows content f.readLines.2 c := by
  cases hclean : c.clean with
  | true =>
    rw [File.readLines_good h.reading (h.good_eq.trans hclean)]
    exact h
  | false =>
    rw [File.readLines_not_good h.reading (h.good_eq.trans hclean)]
    exact h.withStream _ h.content_eq h.pos_eq hclean.symm

theorem readAll : Follows content f.readAll.2 c := by
  cases hclean : c.clean with
  | true =>
    rw [File.readAll_good h.reading (h.good_eq.trans hclean)]
    exact h
  | false =>
    rw [File.readAll_not_good h.reading (h.good_eq.trans hclean)]
    refine h.withStream _ h.content_eq h.pos_eq ?_
    rw [hclean]
    exact FileStream.refused_not_good { f.stream with eofbit := false }

/-- **Every call keeps the agreement.** -/
theorem call (k : Call) : Follows content (f.call k) (c.step content k) := by
  cases k with
  | readLine => exact h.readLine
  | readBytes count => exact h.readBytes count
  | seek offset origin => exact h.seek offset origin
  | readLines => exact h.readLines
  | readAll => exact h.readAll

theorem calls (ks : List Call) :
    Follows content (f.calls ks) (ks.foldl (Cursor.step content) c) := by
  induction ks generalizing f c with
  | nil => exact h
  | cons k ks ih => exact ih (h.call k)

end

end Follows

/-! ## The calls that read the whole file -/

/-- What is asked of a call that reads the whole file. -/
def RightAt (content : List UInt8) (f : File) : Call → Prop
  | .readAll => f.readAll.1 = .ok content ∧ f.readAll.2.stream.pos = f.stream.pos
  | .readLines => f.readLines.1 = .ok (linesOf content) ∧ f.readLines.2.stream.pos = f.stream.pos
  | _ => True

/-- A call that needs a clean stream. -/
def NeedsClean (content : List UInt8) : Call → Prop
  | .readAll => True
  | .readLines => content ≠ []
  | _ => False

theorem linesOf_eq_nil_iff {content : List UInt8} : linesOf content = [] ↔ content = [] := by
  rw [linesOf, List.map_eq_nil_iff]
  constructor
  · intro h
    by_contra hne
    by_cases hmem : newline ∈ content
    · obtain ⟨line, tail, rfl, hline⟩ := List.eq_append_cons_of_mem hmem
      rw [textLines_sep hline] at h
      cases h
    · rw [textLines_last hmem hne] at h
      cases h
  · rintro rfl
    rfl

/-- A call that reads the whole file is right exactly if the stream is clean, or there is
nothing to be read. -/
theorem Follows.rightAt_iff {content : List UInt8} {c : Cursor} (h : Follows content f c)
    (k : Call) :
    RightAt content f k ↔ (NeedsClean content k → c.clean = true) := by
  cases k with
  | readAll =>
    rw [RightAt]
    cases hclean : c.clean with
    | true =>
      rw [File.readAll_good h.reading (h.good_eq.trans hclean), h.content_eq]
      exact ⟨fun _ _ => rfl, fun _ => ⟨rfl, rfl⟩⟩
    | false =>
      rw [File.readAll_not_good h.reading (h.good_eq.trans hclean)]
      constructor
      · rintro ⟨hthrows, _⟩
        cases hthrows
      · intro hneeds
        cases hneeds trivial
  | readLines =>
    rw [RightAt]
    cases hclean : c.clean with
    | true =>
      rw [File.readLines_good h.reading (h.good_eq.trans hclean), h.content_eq]
      exact ⟨fun _ _ => rfl, fun _ => ⟨rfl, rfl⟩⟩
    | false =>
      rw [File.readLines_not_good h.reading (h.good_eq.trans hclean)]
      constructor
      · rintro ⟨hlines, _⟩ hne
        exact absurd (linesOf_eq_nil_iff.mp (Except.ok.inj hlines).symm) hne
      · intro hneeds
        have hempty : content = [] := by
          by_contra hne
          cases hneeds hne
        rw [linesOf_eq_nil_iff.mpr hempty]
        exact ⟨rfl, rfl⟩
  | readLine => exact ⟨fun _ hneeds => hneeds.elim, fun _ => trivial⟩
  | readBytes count => exact ⟨fun _ hneeds => hneeds.elim, fun _ => trivial⟩
  | seek offset origin => exact ⟨fun _ hneeds => hneeds.elim, fun _ => trivial⟩

/-- **Reads of the whole file are right in a sequence of calls** exactly if none is made
after a read that came to the end of the file, or a seek in front of it, and before the
next seek. -/
theorem whole_reads_iff (content : List UInt8) (calls : List Call) :
    (∀ i k, calls[i]? = some k →
        RightAt content ((File.openFile .read content).calls (calls.take i)) k) ↔
      ∀ i k, calls[i]? = some k → NeedsClean content k →
        (Cursor.after content (calls.take i)).clean = true := by
  have hiff : ∀ i k, RightAt content ((File.openFile .read content).calls (calls.take i)) k ↔
      (NeedsClean content k → (Cursor.after content (calls.take i)).clean = true) :=
    fun i k => ((follows_open content).calls (calls.take i)).rightAt_iff k
  simp only [hiff]

/-- After a read of more bytes than there are, `readAll` throws and `readLines` finds no
line. -/
theorem whole_read_fails :
    ((File.openFile .read [97, 98]).calls [.readBytes 3]).readAll.1 = .error .lengthError ∧
      ((File.openFile .read [97, 98]).calls [.readBytes 3]).readLines.1 = .ok [] ∧
      linesOf [97, 98] = [[97, 98]] :=
  ⟨rfl, rfl, by decide⟩

/-! ## Writing lines and reading them -/

/-- The bytes of lines with their ends. -/
def encodeLines (lines : List (List UInt8)) : List UInt8 := lines.flatMap (· ++ [newline])

theorem writeLoop_accepted {accepted : Nat → Bool} (haccepted : ∀ n, accepted n = true) (k : Nat)
    (lines : List (List UInt8)) (hgood : s.good = true) (hend : s.writePos = s.content.length) :
    ∃ s', File.writeLoop accepted k lines s = (.ok (), s') ∧
      s'.content = s.content ++ encodeLines lines := by
  induction lines generalizing k s with
  | nil => exact ⟨s, rfl, (List.append_nil _).symm⟩
  | cons line lines ih =>
    obtain ⟨hgood1, hcontent1, hend1⟩ := FileStream.write_end hgood hend line
    obtain ⟨hgood2, hcontent2, hend2⟩ := FileStream.write_end hgood1 hend1 [newline]
    obtain ⟨s', hrun, hcontent⟩ := ih (k + 2) hgood2 hend2
    refine ⟨s', ?_, ?_⟩
    · rw [File.writeLoop]
      simp only [haccepted, hgood2, Bool.true_eq_false, if_false]
      exact hrun
    · rw [hcontent, hcontent2, hcontent1, encodeLines, encodeLines, List.flatMap_cons]
      simp only [List.append_assoc]

theorem stripCarriageReturn_eq_iff {l : List UInt8} :
    File.stripCarriageReturn l = l ↔ l.getLast? ≠ some carriageReturn := by
  unfold File.stripCarriageReturn
  split
  · next hlast =>
      have hne : l ≠ [] := by
        rintro rfl
        cases hlast
      have hshort : l.dropLast ≠ l := by
        intro heq
        have hlen := congrArg List.length heq
        have hpos : 0 < l.length := List.length_pos_iff.mpr hne
        rw [List.length_dropLast] at hlen
        omega
      exact ⟨fun h => absurd h hshort, fun h => absurd hlast h⟩
  · next hlast => exact ⟨fun _ => hlast, fun _ => rfl⟩

/-- **Lines that were written are read back** without a carriage return at their ends,
and so as they were exactly if none has one. -/
theorem lines_read_back {accepted : Nat → Bool} (haccepted : ∀ n, accepted n = true)
    (before : List UInt8) {lines : List (List UInt8)} (hlines : ∀ l ∈ lines, newline ∉ l) :
    ∃ f, (File.openFile .write before).writeLines accepted lines = (.ok (), f) ∧
      (File.openFile .read f.close.onDisk).readLines.1 =
        .ok (lines.map File.stripCarriageReturn) ∧
      ((File.openFile .read f.close.onDisk).readLines.1 = .ok lines ↔
        ∀ l ∈ lines, l.getLast? ≠ some carriageReturn) := by
  obtain ⟨s, hrun, hcontent⟩ := writeLoop_accepted haccepted 0 lines
    (s := (File.openFile .write before).stream) rfl rfl
  have hwrite : (File.openFile .write before).writeLines accepted lines =
      (.ok (), (File.openFile .write before).withStream s) := by
    unfold File.writeLines
    rw [show (File.openFile .write before).requireWriting = .ok () from rfl]
    simp only [hrun]
  have hdisk : s.content = encodeLines lines := hcontent
  have hread : (File.openFile .read s.content).readLines.1 =
      .ok (lines.map File.stripCarriageReturn) := by
    rw [File.readLines_good ⟨rfl, rfl⟩ rfl]
    show Except.ok (linesOf s.content) = _
    rw [hdisk, linesOf, encodeLines, textLines_flatMap hlines]
  refine ⟨_, hwrite, hread, ?_⟩
  show (File.openFile .read s.content).readLines.1 = .ok lines ↔ _
  have hsame := List.map_inj_left (l := lines) (f := File.stripCarriageReturn) (g := id)
  rw [List.map_id] at hsame
  rw [hread, Except.ok.injEq, hsame]
  exact forall₂_congr fun l _ => stripCarriageReturn_eq_iff

/-- Empty lines, and carriage returns inside a line. -/
theorem lines_read_back_three :
    ∃ f, (File.openFile .write []).writeLines (fun _ => true) [[97], [], [13, 98]] = (.ok (), f) ∧
      (File.openFile .read f.close.onDisk).readLines.1 = .ok [[97], [], [13, 98]] := by
  have hlines : ∀ l ∈ [[97], [], [13, 98]], newline ∉ l := by decide
  have haccepted : ∀ n, (fun _ : Nat => true) n = true := fun _ => rfl
  rcases lines_read_back haccepted [] hlines with ⟨f, hrun, _, hiff⟩
  exact ⟨f, hrun, hiff.mpr (by decide)⟩

/-- A carriage return at the end of a line is lost. -/
theorem lines_lose_carriage_return :
    ∃ f, (File.openFile .write []).writeLines (fun _ => true) [[97, 13]] = (.ok (), f) ∧
      (File.openFile .read f.close.onDisk).readLines.1 = .ok [[97]] :=
  ⟨_, rfl, rfl⟩

end FarouKernel.Ports.Files
