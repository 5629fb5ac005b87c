import FarouKernel.Ports.KprintfModel
import FarouKernel.Verified.Decimal
import FarouKernel.Verified.StreamLines

/-!
# `kernel/Dataprocessor.cpp`: reading and writing pairs

A translation of `InputParser` and `OutputGenerator`.  Strings are their bytes.  The
input file is given by its contents, or by nothing if it cannot be opened; the messages
that go to the log are collected beside the data.
-/

namespace FarouKernel.Ports.DataProcessor

open Verified
open Ports.Kprintf (text)

/-- The end of a line. -/
def newline : UInt8 := 10

/-- `Config`, without the fields that the parser and the generator do not use. -/
structure Config where
  inputFile : List UInt8 := []
  delimiter : List UInt8 := text " "
  commentStyle : List UInt8 := text "#"
  outputFormat : List UInt8 := text "keyvalue"

/-- A string at index 0, which is a null character if the string is empty. -/
def front (s : List UInt8) : UInt8 := s.headD 0

/-! ## `std::stoi` -/

/-- What `std::stoi` throws. -/
inductive StoiError where
  | invalidArgument
  | outOfRange
deriving DecidableEq

/-- The value is one of an `int`. -/
def InInt (v : Int) : Prop := -2 ^ 31 ≤ v ∧ v < 2 ^ 31

instance (v : Int) : Decidable (InInt v) := inferInstanceAs (Decidable (_ ∧ _))

/-- `std::stoi`. -/
def stoi (s : List UInt8) : Except StoiError Int :=
  match numberPrefix s with
  | none => .error .invalidArgument
  | some (v, _) => if InInt v then .ok v else .error .outOfRange

/-! ## `InputParser` -/

/-- What is read, and the messages in the log. -/
structure Parsed where
  data : List (List UInt8 × Int)
  log : List (List UInt8)
deriving DecidableEq

/-- `parseLine`, with its messages; the pair `{}` has an empty key. -/
def parseLine (config : Config) (line : List UInt8) :
    (List UInt8 × Int) × List (List UInt8) :=
  let (key, iss) := (FileStream.over line).getline (front config.delimiter)
  if iss.fail = true then (([], 0), [])
  else
    let (valueStr, iss) := iss.getline newline
    if iss.fail = true then (([], 0), [])
    else
      match stoi valueStr with
      | .ok value => ((key, value), [])
      | .error .invalidArgument => (([], 0), [text "Invalid value in line: " ++ line])
      | .error .outOfRange => (([], 0), [text "Value out of range in line: " ++ line])

/-- The body of the loop of `parse`. -/
def parseStep (config : Config) (parsed : Parsed) (line : List UInt8) : Parsed :=
  if line = [] ∨ front line = front config.commentStyle then parsed
  else
    let (pair, messages) := parseLine config line
    ⟨if pair.1 = [] then parsed.data else parsed.data ++ [pair], parsed.log ++ messages⟩

/-- `parse`; the error is the message of the `FileError`. -/
def parse (config : Config) (input : Option (List UInt8)) : Except (List UInt8) Parsed :=
  match input with
  | none => .error (text "Could not open input file: " ++ config.inputFile)
  | some content =>
    .ok (forLines newline (parseStep config) (content.length + 1)
      (FileStream.over content) ⟨[], []⟩)

/-! ## `OutputGenerator` -/

/-- The loop of `generateJSON`, from index `i` on.  The difference `data.size() - 1` is
taken inside the loop only, where there are elements. -/
def generateJSONLoop (size : Nat) : Nat → List (List UInt8 × Int) → List UInt8
  | _, [] => []
  | i, pair :: data =>
    text "  \"" ++ pair.1 ++ text "\": " ++ intText pair.2 ++
      (if i < size - 1 then text "," else []) ++ text "\n" ++
      generateJSONLoop size (i + 1) data

def generateJSON (data : List (List UInt8 × Int)) : List UInt8 :=
  text "\x7b\n" ++ generateJSONLoop data.length 0 data ++ text "\x7d\n"

def generateCSV (data : List (List UInt8 × Int)) : List UInt8 :=
  data.flatMap fun pair => pair.1 ++ text "," ++ intText pair.2 ++ text "\n"

def generateKeyValue (data : List (List UInt8 × Int)) : List UInt8 :=
  data.flatMap fun pair => pair.1 ++ text ": " ++ intText pair.2 ++ text "\n"

/-- `generate`, into a file that can be opened. -/
def generate (config : Config) (data : List (List UInt8 × Int)) : List UInt8 :=
  if config.outputFormat = text "json" then generateJSON data
  else if config.outputFormat = text "csv" then generateCSV data
  else generateKeyValue data

end FarouKernel.Ports.DataProcessor
