/-! # Instructions

An instruction either acts on the machine or is one end of a loop.  Offsets and pointer movements
are signed 64-bit words and byte operands are bytes; both wrap, so a delta of `-1` and one of `255`
are the same operand. -/

set_option autoImplicit false

namespace FencedTape

inductive Direction where
  | left
  | right
  deriving DecidableEq, Repr

def Direction.delta : Direction → Int64
  | .left => -1
  | .right => 1

/-- What an instruction other than a loop end does.  Offsets count from the data pointer. -/
inductive Action where
  /-- Adds `delta` to a cell. -/
  | adjust (offset : Int64) (delta : UInt8)
  /-- Moves the data pointer. -/
  | select (delta : Int64)
  /-- Stores the next input byte in a cell. -/
  | read (offset : Int64)
  /-- Emits a cell. -/
  | write (offset : Int64)
  /-- Stores `value` in a cell. -/
  | set (offset : Int64) (value : UInt8)
  /-- Adds `factor` times the current cell to a cell. -/
  | multiplyAdd (offset : Int64) (factor : UInt8)
  /-- Moves the data pointer to the nearest zero cell, the current one included. -/
  | scan (direction : Direction)
  deriving DecidableEq, Repr

inductive Instr where
  | act (action : Action)
  /-- Starts a loop that runs while the current cell is not zero. -/
  | loopOpen
  /-- Ends the innermost loop. -/
  | loopClose
  deriving DecidableEq, Repr

private def record (name first second : String) (offset : Int64) (byte : UInt8) : String :=
  name ++ " \x7b " ++ first ++ ": " ++ toString offset.toInt ++ ", " ++ second ++ ": " ++
    toString byte.toNat ++ " \x7d"

private def tuple (name : String) (word : Int64) : String :=
  name ++ "(" ++ toString word.toInt ++ ")"

/-- The text that stands for an action in breakpoint reports. -/
def Action.describe : Action → String
  | .adjust offset delta => record "Adjust" "offset" "delta" offset delta
  | .select delta => tuple "Select" delta
  | .read offset => tuple "Read" offset
  | .write offset => tuple "Write" offset
  | .set offset value => record "Set" "offset" "value" offset value
  | .multiplyAdd offset factor => record "MultiplyAdd" "offset" "factor" offset factor
  | .scan .left => "ScanLeft"
  | .scan .right => "ScanRight"

def Instr.describe : Instr → String
  | .act action => action.describe
  | .loopOpen => "Open"
  | .loopClose => "Close"

end FencedTape
