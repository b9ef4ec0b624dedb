/-! # Byte streams that may fail

A stream is called once for every byte it moves.  Which calls go wrong, and how, is given by a
script; a stream without a script never fails.  A call that is interrupted is made again, so a
transfer takes one good call or ends in a breakdown.  The call at which a mishap strikes moves no
byte. -/

set_option autoImplicit false

namespace FencedTape

inductive Breakdown where
  /-- The call returns without having moved a byte. -/
  | empty
  /-- The call reports that the stream ended too early. -/
  | ended (cause : String)
  /-- The call fails. -/
  | failed (cause : String)
  deriving DecidableEq, Repr

inductive Mishap where
  | interrupted (cause : String)
  | breakdown (b : Breakdown)
  deriving DecidableEq, Repr

inductive StreamError where
  | failed (cause : String)
  /-- A byte was offered and not taken. -/
  | incompleteWrite
  /-- The stream takes no more bytes. -/
  | closed
  /-- The bytes received are not the encoding of a text. -/
  | notText
  deriving DecidableEq, Repr

def StreamError.message : StreamError → String
  | .failed cause => cause
  | .incompleteWrite => "failed to write whole buffer"
  | .closed => "console closed"
  | .notText => "stream did not contain valid UTF-8"

abbrev Script := List (Nat × Mishap)

namespace Script

/-- Turns mishaps in ascending order of call numbers into a script for the calls from `next` on.
Of two mishaps for one call the first counts. -/
def ofSorted (next : Nat) : List (Nat × Mishap) → Script
  | [] => []
  | (call, mishap) :: rest =>
      if call < next then ofSorted next rest
      else (call - next, mishap) :: ofSorted (call + 1) rest

def ofCalls (calls : List (Nat × Mishap)) : Script :=
  ofSorted 0 (calls.mergeSort fun a b => a.1 ≤ b.1)

/-- One call: what goes wrong with it, if anything, and the script for the calls after it. -/
def next : Script → Option Mishap × Script
  | [] => (none, [])
  | (0, mishap) :: rest => (some mishap, rest)
  | (good + 1, mishap) :: rest => (none, (good, mishap) :: rest)

/-- Calls until one is not interrupted: how that one goes wrong, if it does, and the script for
the calls after it. -/
def settle : Script → Option Breakdown × Script
  | [] => (none, [])
  | (0, .interrupted _) :: rest => settle rest
  | (0, .breakdown b) :: rest => (some b, rest)
  | (good + 1, mishap) :: rest => (none, (good, mishap) :: rest)

end Script

structure Source where
  bytes : List UInt8 := []
  mishaps : Script := []
  deriving DecidableEq, Repr

inductive Received where
  | byte (value : UInt8)
  | ended
  | failed (e : StreamError)
  deriving DecidableEq, Repr

namespace Source

/-- Asks for a byte.  A call that moves none, or says that the stream ended, counts as the end of
the input for this request only. -/
def receive (s : Source) : Received × Source :=
  match s.mishaps.settle with
  | (none, mishaps) =>
      match s.bytes with
      | [] => (.ended, { s with mishaps })
      | value :: bytes => (.byte value, { bytes, mishaps })
  | (some .empty, mishaps) => (.ended, { s with mishaps })
  | (some (.ended _), mishaps) => (.ended, { s with mishaps })
  | (some (.failed cause), mishaps) => (.failed (.failed cause), { s with mishaps })

end Source

structure Sink where
  output : Array UInt8 := #[]
  /-- The number of flushes that succeeded. -/
  flushes : Nat := 0
  writeMishaps : Script := []
  flushMishaps : Script := []
  deriving DecidableEq, Repr

namespace Sink

def write (s : Sink) (value : UInt8) : Option StreamError × Sink :=
  match s.writeMishaps.settle with
  | (none, writeMishaps) => (none, { s with output := s.output.push value, writeMishaps })
  | (some .empty, writeMishaps) => (some .incompleteWrite, { s with writeMishaps })
  | (some (.ended cause), writeMishaps) => (some (.failed cause), { s with writeMishaps })
  | (some (.failed cause), writeMishaps) => (some (.failed cause), { s with writeMishaps })

/-- The error that a flush ends in.  A flush moves no byte, so returning without one is no error;
an interruption is, because a flush is not tried again. -/
def flushError : Mishap → Option StreamError
  | .interrupted cause => some (.failed cause)
  | .breakdown .empty => none
  | .breakdown (.ended cause) => some (.failed cause)
  | .breakdown (.failed cause) => some (.failed cause)

def flush (s : Sink) : Option StreamError × Sink :=
  let (mishap, flushMishaps) := s.flushMishaps.next
  match mishap.bind flushError with
  | some e => (some e, { s with flushMishaps })
  | none => (none, { s with flushes := s.flushes + 1, flushMishaps })

def emit (s : Sink) (value : UInt8) : Option StreamError × Sink :=
  match s.write value with
  | (some e, s) => (some e, s)
  | (none, s) => s.flush

end Sink

/-! ## Streams without mishaps -/

@[simp] theorem Script.next_nil : Script.next [] = (none, []) := rfl

theorem Sink.emit_of_nil {s : Sink} (hw : s.writeMishaps = []) (hf : s.flushMishaps = [])
    (value : UInt8) : s.emit value =
      (none, { s with output := s.output.push value, flushes := s.flushes + 1 }) := by
  obtain ⟨output, flushes, writeMishaps, flushMishaps⟩ := s
  cases hw
  cases hf
  rfl

end FencedTape
