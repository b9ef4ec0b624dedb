import FencedTape.Debugger.Request
import FencedTape.Text.Blank
import FencedTape.Text.Numeral

/-! # Commands of the shell

A command is a line of words: a name, or its one-letter alias, and the arguments that the name
calls for.  Addresses are 64-bit words without a sign. -/

set_option autoImplicit false

namespace FencedTape

inductive Command where
  | help
  | quit
  /-- Passes a request on to the debugger. -/
  | ask (request : Request)
  deriving DecidableEq, Repr

inductive CommandError where
  /-- The number of arguments is wrong. -/
  | badSyntax
  | badAddress (word : String)
  | badByte (word : String)
  | unrecognized (line : String)
  deriving DecidableEq, Repr

def CommandError.message : CommandError → String
  | .badSyntax => "Invalid syntax!"
  | .badAddress word => "Invalid address: " ++ word
  | .badByte word => "Invalid byte: " ++ word
  | .unrecognized line => "Unrecognized command: " ++ line

namespace Command

inductive Form where
  | plain (command : Command)
  | address (make : Nat → Request)
  | addressAndByte (make : Nat → UInt8 → Request)

/-- The names and aliases of the commands. -/
def form? : String → Option Form
  | "help" | "h" => some (.plain .help)
  | "quit" | "q" => some (.plain .quit)
  | "run" | "r" => some (.plain (.ask .run))
  | "step" | "s" => some (.plain (.ask .step))
  | "break" | "b" => some (.address .setBreakpoint)
  | "delete" | "d" => some (.address .deleteBreakpoint)
  | "print" | "p" => some (.address .peek)
  | "jump" | "j" => some (.address .jump)
  | "select" => some (.address .select)
  | "assign" | "a" => some (.addressAndByte .poke)
  | _ => none

def address (word : List Char) : Except CommandError Nat :=
  match Text.natural? 0x10000000000000000 word with
  | some n => .ok n
  | none => .error (.badAddress (String.ofList word))

def byte (word : List Char) : Except CommandError UInt8 :=
  match Text.natural? 256 word with
  | some n => .ok (UInt8.ofNat n)
  | none => .error (.badByte (String.ofList word))

/-- The command with this form and these arguments.  Arguments are read from left to right, and
only if their number is right. -/
def Form.complete : Form → List (List Char) → Except CommandError Command
  | .plain command, [] => return command
  | .address make, [a] => return .ask (make (← Command.address a))
  | .addressAndByte make, [a, b] => return .ask (make (← Command.address a) (← Command.byte b))
  | _, _ => throw .badSyntax

def parse (line : String) : Except CommandError Command :=
  match Text.words line.toList with
  | [] => .error (.unrecognized line)
  | name :: arguments =>
      match form? (String.ofList name) with
      | some form => form.complete arguments
      | none => .error (.unrecognized line)

end Command

end FencedTape
