import FarouKernel.Verified.Framing
import Mathlib.Data.List.DropRight

/-!
# `net/network.c`: what a client sends

A translation of `recv_full`, `sanitize_input` and the receive loop of
`handle_client`.

The socket is the sequence of results of the `select` and `recv` calls still to
come.  A buffer is the list of the bytes in it before the terminating zero that
`recv_full` stores; a byte zero among them cuts the string short for
`sanitize_input`, as `strlen` does.  `isprint` and `isspace` are those of the C
locale.

Replies, the log, the request counter, the check for inactivity and the flag
`server_running` are left out.
-/

namespace FarouKernel.Ports.Net

open Verified

/-- `'\n'`. -/
def newline : UInt8 := 10

def maxCommandLineLength : Nat := 1024

def isprint (b : UInt8) : Bool := 32 ≤ b && b ≤ 126

def isspace (b : UInt8) : Bool := b == 32 || (9 ≤ b && b ≤ 13)

/-- The string without its last byte, if that is `b`. -/
def stripLast (b : UInt8) (s : List UInt8) : List UInt8 :=
  if s.getLast? = some b then s.dropLast else s

/-- `sanitize_input`. -/
def sanitizeInput (buffer : List UInt8) : List UInt8 :=
  let s := buffer.takeWhile (· ≠ 0)
  let s := stripLast 10 s
  let s := stripLast 13 s
  let s := if maxCommandLineLength ≤ s.length then s.take (maxCommandLineLength - 1) else s
  let s := s.map fun b => if !isprint b && !isspace b then 63 else b
  let s := s.dropWhile isspace
  s.rdropWhile isspace

/-- The result of a pair of `select` and `recv`. -/
inductive SockEvent where
  /-- `recv` has these bytes; none if the peer has closed the connection -/
  | data (bytes : List UInt8)
  /-- one of the two was interrupted -/
  | interrupted
  /-- `select` timed out -/
  | timeout
  /-- one of the two failed -/
  | error
  deriving DecidableEq

/-- `recv_status_t`. -/
inductive RecvStatus where
  | ok
  | eof
  | timeout
  | error
  deriving DecidableEq

/-- The loop of `recv_full`, with `buffer` received so far.  The result is the
status, the buffer and the rest of the socket; there is none as long as the call
waits. -/
def recvLoop (len : Nat) (buffer : List UInt8) :
    List SockEvent → Option (RecvStatus × List UInt8 × List SockEvent)
  | [] => if buffer.length < len - 1 then none else some (.ok, buffer, [])
  | event :: rest =>
    if buffer.length < len - 1 then
      match event with
      | .interrupted => recvLoop len buffer rest
      | .error => some (.error, buffer, rest)
      | .timeout => some (if 0 < buffer.length then .ok else .timeout, buffer, rest)
      | .data [] => some (.eof, buffer, rest)
      | .data bytes =>
        if len - buffer.length - 1 < bytes.length then
          -- the buffer is full now, which ends the loop
          some (.ok, buffer ++ bytes.take (len - buffer.length - 1),
            .data (bytes.drop (len - buffer.length - 1)) :: rest)
        else if newline ∈ bytes then some (.ok, buffer ++ bytes, rest)
        else recvLoop len (buffer ++ bytes) rest
    else some (.ok, buffer, event :: rest)

/-- `recv_full`. -/
def recvFull (len : Nat) (socket : List SockEvent) :
    Option (RecvStatus × List UInt8 × List SockEvent) :=
  recvLoop len [] socket

/-- The command is `exit` or `quit`. -/
def isExit (command : List UInt8) : Bool :=
  command == [101, 120, 105, 116] || command == [113, 117, 105, 116]

/-- The receive loop of `handle_client`: the commands it gets, in order, as long
as it does not wait for the client. -/
def handleClient (bufSize : Nat) : Nat → List SockEvent → Option (List (List UInt8))
  | 0, _ => none
  | fuel + 1, socket =>
    match recvFull bufSize socket with
    | none => none
    | some (.timeout, _, socket) => handleClient bufSize fuel socket
    | some (.error, _, _) => some []
    | some (.eof, _, _) => some []
    | some (.ok, buffer, socket) =>
      let command := sanitizeInput buffer
      if isExit command = true then some [command]
      else (handleClient bufSize fuel socket).map (command :: ·)

/-- The socket of a client that sends these chunks and closes the connection. -/
def socketOf (chunks : List (List UInt8)) : List SockEvent := chunks.map .data ++ [.data []]

end FarouKernel.Ports.Net
