import FarouKernel.Verified.FileStream

/-!
# `fs/file.cpp`: the class `File`

A translation of opening, closing, reading, writing lines and seeking, over the streams
of `Verified.FileStream`.  A string is the list of its bytes.  A method that throws
leaves the object as it was at that point, so every result comes with the object.

Opening and allocating succeed, with one exception: `readAll` reserves the size that
`tellg` has returned, and -1 becomes a size that no string can have.  Objects that were
moved from, and the methods that no result needs, are left out.
-/

namespace FarouKernel.Ports.Files

open Verified

inductive Mode where
  | read
  | write
  | append
  | readWrite
deriving DecidableEq

inductive SeekOrigin where
  | begin
  | current
  | ending
deriving DecidableEq

/-- The exceptions: `File::Exception` with its text, and `std::length_error`. -/
inductive Thrown where
  | exception (message : String)
  | lengthError
deriving DecidableEq

/-- `File`, with its `Impl`. -/
structure File where
  isOpen : Bool
  mode : Mode
  stream : FileStream

/-- Bytes as the characters of a message. -/
def asText (bytes : List UInt8) : String := String.ofList (bytes.map fun b => Char.ofNat b.toNat)

/-- The line end. -/
def newline : UInt8 := 10

/-- The carriage return. -/
def carriageReturn : UInt8 := 13

/-- The position that an offset means. -/
def SeekOrigin.target (offset : Int) (s : FileStream) : SeekOrigin → Int
  | .begin => offset
  | .current => s.pos + offset
  | .ending => s.content.length + offset

/-- The file can be read. -/
def Mode.reads (mode : Mode) : Bool := mode = .read || mode = .readWrite

/-- The file can be written. -/
def Mode.writes (mode : Mode) : Bool := mode = .write || mode = .append || mode = .readWrite

namespace File

/-- `open`, on a file with the given bytes. -/
def openFile (mode : Mode) (onDisk : List UInt8) : File where
  isOpen := true
  mode := mode
  stream :=
    { app := decide (mode = .append)
      content := if mode = .write then [] else onDisk
      pos := 0
      eofbit := false
      failbit := false
      badbit := false }

def close (f : File) : File := { f with isOpen := false }

/-- The bytes of the file. -/
def onDisk (f : File) : List UInt8 := f.stream.content

/-- The tests with which every method that reads begins. -/
def requireReading (f : File) : Except Thrown Unit :=
  if f.isOpen = false then .error (.exception "File is not open")
  else if f.mode = .write ∨ f.mode = .append then
    .error (.exception "File not opened for reading")
  else .ok ()

/-- The tests with which every method that writes begins. -/
def requireWriting (f : File) : Except Thrown Unit :=
  if f.isOpen = false then .error (.exception "File is not open")
  else if f.mode = .read then .error (.exception "File not opened for writing")
  else .ok ()

/-- The object with another stream. -/
def withStream (f : File) (s : FileStream) : File := { f with stream := s }

/-- `if (!line.empty() && line.back() == '\r') line.pop_back()`. -/
def stripCarriageReturn (line : List UInt8) : List UInt8 :=
  if line.getLast? = some carriageReturn then line.dropLast else line

def readAll (f : File) : Except Thrown (List UInt8) × File :=
  match f.requireReading with
  | .error e => (.error e, f)
  | .ok () =>
    let (currentPos, s) := f.stream.tellg
    let s := s.seekg s.content.length
    let (fileSize, s) := s.tellg
    let s := s.seekg 0
    -- the size is converted to `size_t`
    if fileSize < 0 then (.error .lengthError, f.withStream s)
    else
      let (content, s) := s.drain
      (.ok content, f.withStream (s.clear.seekg currentPos))

/-- The loop of `readLines`.  Every round but the last takes a byte from the stream, so
one round more than there are bytes is enough. -/
def linesLoop : Nat → FileStream → List (List UInt8) × FileStream
  | 0, s => ([], s)
  | rounds + 1, s =>
    let (line, s) := s.getline newline
    if s.fail = true then ([], s)
    else
      let (lines, s) := linesLoop rounds s
      (stripCarriageReturn line :: lines, s)

def readLines (f : File) : Except Thrown (List (List UInt8)) × File :=
  match f.requireReading with
  | .error e => (.error e, f)
  | .ok () =>
    let (currentPos, s) := f.stream.tellg
    let s := s.seekg 0
    let (lines, s) := linesLoop (s.content.length + 1) s
    (.ok lines, f.withStream (s.clear.seekg currentPos))

def readLine (f : File) : Except Thrown (List UInt8) × File :=
  match f.requireReading with
  | .error e => (.error e, f)
  | .ok () =>
    let (line, s) := f.stream.getline newline
    (.ok (if s.fail = true then line else stripCarriageReturn line), f.withStream s)

def readBytes (count : Nat) (f : File) : Except Thrown (List UInt8) × File :=
  match f.requireReading with
  | .error e => (.error e, f)
  | .ok () =>
    let (buffer, s) := f.stream.read count
    (.ok buffer, f.withStream s)

/-- The loop of `writeLines`; `accepted` says of each write whether the stream takes it,
and `k` counts them. -/
def writeLoop (accepted : Nat → Bool) : Nat → List (List UInt8) → FileStream →
    Except Thrown Unit × FileStream
  | _, [], s => (.ok (), s)
  | k, line :: lines, s =>
    let s := s.write (accepted k) line
    let s := s.write (accepted (k + 1)) [newline]
    if s.good = false then
      (.error (.exception ("Write operation failed at line: " ++ asText line)), s)
    else writeLoop accepted (k + 2) lines s

def writeLines (accepted : Nat → Bool) (lines : List (List UInt8)) (f : File) :
    Except Thrown Unit × File :=
  match f.requireWriting with
  | .error e => (.error e, f)
  | .ok () =>
    let (result, s) := writeLoop accepted 0 lines f.stream
    (result, f.withStream s)

def seek (offset : Int) (origin : SeekOrigin) (f : File) : Except Thrown Unit × File :=
  if f.isOpen = false then (.error (.exception "File is not open"), f)
  else
    let s := f.stream.clear
    let s := if f.mode.reads = true then s.seekg (origin.target offset s) else s
    if f.mode.reads = true ∧ s.good = false ∧ s.eofbit = false then
      (.error (.exception "Seek operation failed for reading"), f.withStream s)
    else
      let s := if f.mode.writes = true then s.seekp (origin.target offset s) else s
      if f.mode.writes = true ∧ s.good = false then
        (.error (.exception "Seek operation failed for writing"), f.withStream s)
      else (.ok (), f.withStream s)

end File

end FarouKernel.Ports.Files
