import FencedTape.Debugger

/-! # Requests to the debugger

Everything that can be asked of a debugger as one type, with the replies that it gives. -/

set_option autoImplicit false

namespace FencedTape

inductive Request where
  | run
  | step
  | setBreakpoint (address : Nat)
  | deleteBreakpoint (address : Nat)
  | peek (index : Nat)
  | poke (index : Nat) (value : UInt8)
  | jump (address : Nat)
  | select (index : Nat)
  | setPointer (index : Nat)
  deriving DecidableEq, Repr

inductive RequestError where
  | outOfBounds (address : Nat)
  | stream (e : StreamError)
  deriving DecidableEq, Repr

def RequestError.message : RequestError → String
  | .outOfBounds address => "Address out of bounds: " ++ toString address
  | .stream e => "I/O error: " ++ e.message

inductive Reply where
  | done
  /-- The program has ended. -/
  | finished
  /-- A run stopped at a breakpoint. -/
  | stopped (address : Nat)
  /-- Whether the set of breakpoints changed. -/
  | changed (b : Bool)
  | value (v : UInt8)
  | refused (e : RequestError)
  /-- An access found no cell, and the program is no more. -/
  | fault (position : Int64)
  /-- The run has not come to an end within its limit. -/
  | running
  deriving DecidableEq, Repr

namespace Reply

def ofOutcome : Outcome → Reply
  | .done => .done
  | .failed e => .refused (.stream e)
  | .fault position => .fault position

def ofProgress : Progress → Reply
  | .running => .running
  | .finished => .finished
  | .stopped address => .stopped address
  | .failed e => .refused (.stream e)
  | .fault position => .fault position

end Reply

/-- Carries out a request; a run takes at most `limit` turns. -/
def Debugger.handle (limit : Nat) (d : Debugger) : Request → Debugger × Reply
  | .run => (d.run limit).map id .ofProgress
  | .step => d.step.map id .ofOutcome
  | .setBreakpoint address =>
      match d.setBreakpoint? address with
      | some (d, new) => (d, .changed new)
      | none => (d, .refused (.outOfBounds address))
  | .deleteBreakpoint address => (d.deleteBreakpoint address).map id .changed
  | .peek index =>
      match d.peek? index with
      | some value => (d, .value value)
      | none => (d, .refused (.outOfBounds index))
  | .poke index value =>
      match d.poke? index value with
      | some (d, old) => (d, .value old)
      | none => (d, .refused (.outOfBounds index))
  | .jump address =>
      match d.jump? address with
      | some d => (d, .done)
      | none => (d, .refused (.outOfBounds address))
  | .select index =>
      match d.select? index with
      | some d => (d, .done)
      | none => (d, .refused (.outOfBounds index))
  | .setPointer index => (d.setPointer index, .done)

end FencedTape
