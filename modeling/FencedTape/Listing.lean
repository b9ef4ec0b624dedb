import FencedTape.Listing.Line
import FencedTape.Program

/-! # Listings

The text form of a program, one instruction to a line.  `Program.ofListing` reads it: the first
line at fault is reported by its number, and loops are paired only once every line has been read.
`Program.toListing` writes it, indenting the body of a loop by four spaces; deltas and factors are
written as signed bytes and stored values as unsigned ones. -/

set_option autoImplicit false

namespace FencedTape

inductive ListingError where
  /-- A line cannot be read; lines are counted from 1. -/
  | line (number : Nat) (cause : LineError)
  | loop (cause : LoopError)
  deriving DecidableEq, Repr

def ListingError.message : ListingError → String
  | .line number cause => "line " ++ toString number ++ ": " ++ cause.message
  | .loop cause => cause.message

namespace Listing

def readLines (number : Nat) : List (List Char) → Except ListingError (List Instr)
  | [] => .ok []
  | line :: lines =>
      match readLine line with
      | .error cause => .error (.line number cause)
      | .ok none => readLines (number + 1) lines
      | .ok (some instr) => (readLines (number + 1) lines).map (instr :: ·)

def read (text : List Char) : Except ListingError (List Instr) :=
  readLines 1 ((Text.lines text).map Text.withoutEnding)

def signed (b : UInt8) : Int := b.toInt8.toInt

/-- The name of an instruction and its operands as they are written. -/
def parts : Instr → Mnemonic × List Int
  | .act (.adjust offset delta) => (.adjust, [offset.toInt, signed delta])
  | .act (.select delta) => (.select, [delta.toInt])
  | .act (.read offset) => (.read, [offset.toInt])
  | .act (.write offset) => (.write, [offset.toInt])
  | .act (.set offset value) => (.set, [offset.toInt, value.toNat])
  | .act (.multiplyAdd offset factor) => (.madd, [offset.toInt, signed factor])
  | .loopOpen => (.loopOpen, [])
  | .loopClose => (.loopClose, [])
  | .act (.scan .left) => (.scanLeft, [])
  | .act (.scan .right) => (.scanRight, [])

def writeOperands : List Int → List Char
  | [] => []
  | [value] => Text.ofInt value
  | value :: values => Text.ofInt value ++ ',' :: ' ' :: writeOperands values

def writeInstr (instr : Instr) : List Char :=
  let (mnemonic, values) := parts instr
  mnemonic.text.toList ++ '(' :: writeOperands values ++ [')']

/-- The level after an instruction that is reached at level `level`.  It stays at zero where it
would go below. -/
def levelAfter (level : Nat) : Instr → Nat
  | .act _ => level
  | .loopOpen => level + 1
  | .loopClose => level - 1

/-- The level at which an instruction is written.  It goes down before the end of a loop and up
behind its start, so that both ends stand at the level outside the loop. -/
def ownLevel (level : Nat) : Instr → Nat
  | .act _ | .loopOpen => level
  | .loopClose => levelAfter level .loopClose

def writeLine (level : Nat) (instr : Instr) : List Char :=
  List.replicate (4 * level) ' ' ++ writeInstr instr ++ ['\n']

def write (level : Nat) : List Instr → List Char
  | [] => []
  | instr :: code => writeLine (ownLevel level instr) instr ++ write (levelAfter level instr) code

end Listing

namespace Program

def ofListing (text : String) : Except ListingError Program :=
  match Listing.read text.toList with
  | .error e => .error e
  | .ok code => (ofCode code).mapError .loop

def toListing (p : Program) : String := String.ofList (Listing.write 0 p.code.toList)

end Program

end FencedTape
