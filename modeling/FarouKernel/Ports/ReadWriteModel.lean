import FarouKernel.Ports.KprintfModel
import FarouKernel.Verified.Word64

/-!
# `fs/read_write.c`: writing a file and reading it back

A translation of `process_file` from the point at which the file is open, and so empty.
Every system call is one step, whose result comes from outside: `Possible` says which
results `write` and `read` can have.  `write` returns at most what it was asked for;
`read` also at most what is left in the file, and 0 at its end only.

What goes to the standard output is kept in three parts, up to the start marker, between
the markers, and from the end marker on.  The results are recorded.  `bytes_written_total`
is a signed number that is compared with an unsigned one.

The log file and the standard error output are left out.
-/

namespace FarouKernel.Ports.ReadWrite

open Ports.Kprintf (text)
open Verified

def maxRetries : Nat := 3

/-- `file_task_t`: `data_len` is the length of `data`, which is in memory, and `main`
refuses buffers without room. -/
structure FileTask where
  filename : List UInt8
  data : List UInt8
  bufferSize : Nat
  data_fits : data.length < 2 ^ 63
  buffer_pos : 0 < bufferSize

/-- The result of a system call: a count, `EINTR`, or another error. -/
inductive IoResult where
  | count (n : Nat)
  | interrupted
  | failed
deriving DecidableEq

/-- The ways to `cleanup`. -/
inductive Ending where
  | writeFailed
  | wroteNothing
  | seekFailed
  | readFailed
  | endOfFile
deriving DecidableEq

/-- The system call that is made next. -/
inductive Phase where
  | writing
  | seeking
  | reading
  | stopped (ending : Ending)
deriving DecidableEq

/-- The variables of `process_file`, the file, the output, and the results of `write` and
of `read`, newest first. -/
structure Process where
  phase : Phase
  file : List UInt8
  offset : Nat
  bytesWrittenTotal : Int
  retries : Nat
  buffer : List UInt8
  before : List UInt8
  between : List UInt8
  after : List UInt8
  writeResults : List IoResult
  readResults : List IoResult

section Functions

variable (tid : Nat) (task : FileTask)

/-- A message of the thread. -/
def threadText (s : String) : List UInt8 := text ("Thread " ++ toString tid ++ ": " ++ s)

/-- The message about another attempt. -/
def retryText (what : String) (retries : Nat) : List UInt8 :=
  threadText tid (what ++ " error, retry " ++ toString retries ++ "/" ++ toString maxRetries ++
    "...\n")

namespace Process

/-- A message in front of the start marker. -/
def say (p : Process) (t : List UInt8) : Process := { p with before := p.before ++ t }

/-- The test of the first loop. -/
def testWriting (p : Process) : Process :=
  if ofInt64 p.bytesWrittenTotal < task.data.length then { p with phase := .writing }
  else
    { p.say (threadText tid "Finished writing to " ++ task.filename ++ text "\n") with
      phase := .seeking }

/-- The state in which the first loop begins. -/
def start : Process :=
  testWriting tid task
    { phase := .writing
      file := []
      offset := 0
      bytesWrittenTotal := 0
      retries := 0
      buffer := List.replicate task.bufferSize 0
      before :=
        threadText tid ("Writing " ++ toString task.data.length ++ " bytes to ") ++
          task.filename ++ text "\n"
      between := []
      after := []
      writeResults := []
      readResults := [] }

/-- The number of bytes that `write` is asked for. -/
def requested (p : Process) : Nat := sub64 task.data.length (ofInt64 p.bytesWrittenTotal)

/-- The file with the first `n` of the bytes to be written at the offset. -/
def fileWrite (n : Nat) (p : Process) : List UInt8 :=
  p.file.take p.offset ++ (task.data.drop p.bytesWrittenTotal.toNat).take n ++
    p.file.drop (p.offset + n)

/-- The body of the first loop, and its test. -/
def afterWrite (p : Process) : IoResult → Process
  | .interrupted => testWriting tid task (p.say (threadText tid "Write interrupted, retrying...\n"))
  | .failed =>
    if p.retries < maxRetries then
      testWriting tid task
        { p.say (retryText tid "Write" (p.retries + 1)) with retries := p.retries + 1 }
    else { p with phase := .stopped .writeFailed }
  | .count 0 => { p with phase := .stopped .wroteNothing }
  | .count (n + 1) =>
    testWriting tid task
      { p with
        file := p.fileWrite task (n + 1)
        offset := p.offset + (n + 1)
        bytesWrittenTotal := p.bytesWrittenTotal + (n + 1 : Nat)
        retries := 0 }

/-- `lseek` to the beginning, and the start marker. -/
def afterSeek (p : Process) : IoResult → Process
  | .count _ =>
    { p.say (threadText tid "Reading content from " ++ task.filename ++ text ":\n" ++
        (text "--- Start content of " ++ task.filename ++ text " ---\n")) with
      phase := .reading
      offset := 0
      retries := 0 }
  | _ => { p with phase := .stopped .seekFailed }

/-- The body of the second loop. -/
def afterRead (p : Process) : IoResult → Process
  | .interrupted =>
    { p with between := p.between ++ threadText tid "Read interrupted, retrying...\n" }
  | .failed =>
    if p.retries < maxRetries then
      { p with
        retries := p.retries + 1
        between := p.between ++ retryText tid "Read" (p.retries + 1) }
    else { p with phase := .stopped .readFailed }
  | .count 0 =>
    { p with
      phase := .stopped .endOfFile
      after := text "\n--- End content of " ++ task.filename ++ text " ---\n" }
  | .count (n + 1) =>
    let buffer := (p.file.drop p.offset).take (n + 1) ++ p.buffer.drop (n + 1)
    { p with
      buffer := buffer
      offset := p.offset + (n + 1)
      between := p.between ++ buffer.take (n + 1)
      retries := 0 }

/-- The results that the next system call can have. -/
def Possible (p : Process) (r : IoResult) : Prop :=
  match p.phase with
  | .writing => ∀ n, r = .count n → n ≤ p.requested task
  | .seeking => True
  | .reading => ∀ n, r = .count n →
      n ≤ task.bufferSize ∧ n ≤ p.file.length - p.offset ∧
        (n = 0 ↔ p.file.length ≤ p.offset)
  | .stopped _ => False

/-- The state after a system call. -/
def next (p : Process) (r : IoResult) : Process :=
  match p.phase with
  | .writing => { p.afterWrite tid task r with writeResults := r :: p.writeResults }
  | .seeking => p.afterSeek tid task r
  | .reading => { p.afterRead tid task r with readResults := r :: p.readResults }
  | .stopped _ => p

end Process

/-- The steps of `process_file`. -/
def Step (p p' : Process) : Prop := ∃ r, p.Possible task r ∧ p' = p.next tid task r

end Functions

end FarouKernel.Ports.ReadWrite
