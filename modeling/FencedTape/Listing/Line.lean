import FencedTape.Instr
import FencedTape.Text.Blank
import FencedTape.Text.Numeral

/-! # Lines of a listing

A line holds one instruction, written as a name and its operands in parentheses, or nothing.
Blanks may stand between any two parts, one semicolon may end the instruction, and a comment
runs from the first `#` or `//` to the end of the line.  Byte operands are written as integers
from `-255` to `255` and stored modulo 256. -/

set_option autoImplicit false

namespace FencedTape

inductive Mnemonic where
  | adjust
  | select
  | read
  | write
  | set
  | madd
  | loopOpen
  | loopClose
  | scanLeft
  | scanRight
  deriving DecidableEq, Repr

namespace Mnemonic

def all : List Mnemonic :=
  [.adjust, .select, .read, .write, .set, .madd, .loopOpen, .loopClose, .scanLeft, .scanRight]

def text : Mnemonic → String
  | .adjust => "ADJUST"
  | .select => "SELECT"
  | .read => "READ"
  | .write => "WRITE"
  | .set => "SET"
  | .madd => "MADD"
  | .loopOpen => "OPEN"
  | .loopClose => "CLOSE"
  | .scanLeft => "SCAN_LEFT"
  | .scanRight => "SCAN_RIGHT"

def arity : Mnemonic → Nat
  | .adjust | .set | .madd => 2
  | .select | .read | .write => 1
  | .loopOpen | .loopClose | .scanLeft | .scanRight => 0

def ofText? (s : List Char) : Option Mnemonic := all.find? fun m => m.text.toList = s

theorem ofText?_eq_some_iff {s : List Char} {m : Mnemonic} :
    ofText? s = some m ↔ s = m.text.toList := by
  constructor
  · intro h
    have found := List.find?_some h
    exact (of_decide_eq_true found).symm
  · rintro rfl
    cases m <;> decide

end Mnemonic

inductive LineError where
  | unknownMnemonic (name : String)
  | missingOpenParen (name : String)
  | missingCloseParen
  | trailingText (text : String)
  | arity (mnemonic : Mnemonic) (found : Nat)
  | invalidInteger (text : String)
  | byteOutOfRange (value : Int64)
  deriving DecidableEq, Repr

def LineError.message : LineError → String
  | .unknownMnemonic name => "unknown instruction `" ++ name ++ "`"
  | .missingOpenParen name => "expected `(` after `" ++ name ++ "`"
  | .missingCloseParen => "missing `)`"
  | .trailingText text => "unexpected text after `)`: `" ++ text ++ "`"
  | .arity mnemonic found =>
      "`" ++ mnemonic.text ++ "` takes " ++ toString mnemonic.arity ++ " operand(s), got " ++
        toString found
  | .invalidInteger text => "invalid integer `" ++ text ++ "`"
  | .byteOutOfRange value => "byte operand " ++ toString value.toInt ++ " is outside -255..=255"

namespace Listing

def withoutComment : List Char → List Char
  | [] => []
  | '#' :: _ => []
  | '/' :: '/' :: _ => []
  | c :: s => c :: withoutComment s

/-- Takes one semicolon off the end of a text that does not end in a blank, and the blanks that
stood before it. -/
def withoutSemicolon (s : List Char) : List Char :=
  if s.getLast? = some ';' then Text.trimEnd s.dropLast else s

def body (line : List Char) : List Char := withoutSemicolon (Text.trim (withoutComment line))

def offset (s : List Char) : Except LineError Int64 :=
  match Text.word? s with
  | some value => .ok value
  | none => .error (.invalidInteger (String.ofList s))

def byte (s : List Char) : Except LineError UInt8 := do
  let value ← offset s
  if -255 ≤ value.toInt ∧ value.toInt ≤ 255 then
    return UInt8.ofNat (value.toInt % 256).toNat
  else
    throw (.byteOutOfRange value)

/-- The instruction with this name and these operands.  Operands are read from left to right, and
only if their number is right. -/
def assemble : Mnemonic → List (List Char) → Except LineError Instr
  | .adjust, [o, d] => return .act (.adjust (← offset o) (← byte d))
  | .select, [d] => return .act (.select (← offset d))
  | .read, [o] => return .act (.read (← offset o))
  | .write, [o] => return .act (.write (← offset o))
  | .set, [o, v] => return .act (.set (← offset o) (← byte v))
  | .madd, [o, f] => return .act (.multiplyAdd (← offset o) (← byte f))
  | .loopOpen, [] => return .loopOpen
  | .loopClose, [] => return .loopClose
  | .scanLeft, [] => return .act (.scan .left)
  | .scanRight, [] => return .act (.scan .right)
  | mnemonic, operands => throw (.arity mnemonic operands.length)

def operands (inner : List Char) : List (List Char) :=
  if Text.trim inner = [] then [] else (Text.pieces (· = ',') (Text.trim inner)).map Text.trim

/-- Why a line without an opening parenthesis is no instruction: its first word decides. -/
def withoutParen (body : List Char) : LineError :=
  let name := (Text.words body).headD body
  match Mnemonic.ofText? name with
  | some _ => .missingOpenParen (String.ofList name)
  | none => .unknownMnemonic (String.ofList name)

def readBody (body : List Char) : Except LineError Instr := do
  let some (name, rest) := Text.splitAtFirst '(' body | throw (withoutParen body)
  let some (inner, after) := Text.splitAtFirst ')' rest | throw .missingCloseParen
  let trailing := Text.trim after
  if trailing ≠ [] then
    throw (.trailingText (String.ofList trailing))
  let name := Text.trim name
  match Mnemonic.ofText? name with
  | some mnemonic => assemble mnemonic (operands inner)
  | none => throw (.unknownMnemonic (String.ofList name))

/-- Reads one line: its instruction, or `none` if it holds nothing but blanks and a comment. -/
def readLine (line : List Char) : Except LineError (Option Instr) :=
  match body line with
  | [] => .ok none
  | c :: s => (readBody (c :: s)).map some

end Listing

end FencedTape
