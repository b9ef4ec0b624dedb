import FencedTape.Machine
import FencedTape.Text.Blank
import FencedTape.Text.Numeral

/-! # Command line options

The options may stand before and after the one file.  The value of an option follows it as the next
argument, which may then not start with a hyphen, or is attached to it with `=`.  After `--` every
argument is a file.  Only `--break` may be given more than once. -/

set_option autoImplicit false

namespace FencedTape

structure Options where
  file : String
  settings : Settings
  /-- Write the listing of the program instead of running it. -/
  disasm : Bool
  breakpoints : List Nat
  /-- Report what the run did. -/
  stats : Bool
  /-- Start the shell. -/
  interactive : Bool
  deriving DecidableEq, Repr

inductive UsageError where
  | unknownArgument (argument : String)
  | repeated (option : String)
  | missingValue (option : String)
  | unexpectedValue (option : String)
  | invalidValue (option value : String)
  | missingFile
  | unexpectedFile (file : String)
  /-- Not an error: the usage is asked for. -/
  | helpWanted
  deriving DecidableEq, Repr

def UsageError.message : UsageError → String
  | .unknownArgument argument => "unexpected argument '" ++ argument ++ "'"
  | .repeated option => "'" ++ option ++ "' cannot be used more than once"
  | .missingValue option => "a value is required for '" ++ option ++ "'"
  | .unexpectedValue option => "'" ++ option ++ "' takes no value"
  | .invalidValue option value => "invalid value '" ++ value ++ "' for '" ++ option ++ "'"
  | .missingFile => "FILE was not given"
  | .unexpectedFile file => "unexpected argument '" ++ file ++ "'"
  | .helpWanted => "help"

namespace Options

def usage : String :=
  "Usage: guardtape [OPTIONS] FILE\n\n" ++
  "  --tape-size N            tape length in bytes [default: 30000]\n" ++
  "  --eof ff|zero|unchanged  what READ stores once input is exhausted [default: ff]\n" ++
  "  --disasm                 print the normalized listing instead of running it\n" ++
  "  --break ADDRESS          report each arrival at this instruction (repeatable)\n" ++
  "  --stats                  report instruction count and elapsed time\n" ++
  "  -i, --interactive        start a debugger shell\n" ++
  "  -h, --help               print this help\n"

/-- The options seen so far. -/
structure Draft where
  file : Option String := none
  tapeSize : Option UInt64 := none
  atEnd : Option EndPolicy := none
  disasm : Bool := false
  breakpoints : List Nat := []
  stats : Bool := false
  interactive : Bool := false

def Draft.complete (d : Draft) : Except UsageError Options :=
  match d.file with
  | none => .error .missingFile
  | some file =>
      .ok
        { file
          settings :=
            { tapeSize := d.tapeSize.getD 30000, atEnd := d.atEnd.getD (.sentinel 255) }
          disasm := d.disasm
          breakpoints := d.breakpoints
          stats := d.stats
          interactive := d.interactive }

inductive Flag where
  | disasm
  | stats
  | interactive
  | help
  deriving DecidableEq, Repr

inductive Valued where
  | tapeSize
  | eof
  | breakpoint
  deriving DecidableEq, Repr

def Flag.ofName? : String → Option Flag
  | "disasm" => some .disasm
  | "stats" => some .stats
  | "interactive" => some .interactive
  | "help" => some .help
  | _ => none

def Flag.ofLetter? : Char → Option Flag
  | 'i' => some .interactive
  | 'h' => some .help
  | _ => none

def Valued.ofName? : String → Option Valued
  | "tape-size" => some .tapeSize
  | "eof" => some .eof
  | "break" => some .breakpoint
  | _ => none

def policy? : String → Option EndPolicy
  | "ff" => some (.sentinel 255)
  | "zero" => some (.sentinel 0)
  | "unchanged" => some .unchanged
  | _ => none

/-- Sets a flag; `option` is how it was given. -/
def Draft.setFlag (d : Draft) (option : String) : Flag → Except UsageError Draft
  | .disasm => if d.disasm then .error (.repeated option) else .ok { d with disasm := true }
  | .stats => if d.stats then .error (.repeated option) else .ok { d with stats := true }
  | .interactive =>
      if d.interactive then .error (.repeated option) else .ok { d with interactive := true }
  | .help => .error .helpWanted

/-- Sets an option that has a value; `option` is how it was given. -/
def Draft.setValue (d : Draft) (option value : String) : Valued → Except UsageError Draft
  | .tapeSize =>
      match d.tapeSize, Text.natural? 0x10000000000000000 value.toList with
      | none, some n => .ok { d with tapeSize := some (UInt64.ofNat n) }
      | _, none => .error (.invalidValue option value)
      | some _, _ => .error (.repeated option)
  | .eof =>
      match d.atEnd, policy? value with
      | none, some policy => .ok { d with atEnd := some policy }
      | _, none => .error (.invalidValue option value)
      | some _, _ => .error (.repeated option)
  | .breakpoint =>
      match Text.natural? 0x10000000000000000 value.toList with
      | some n => .ok { d with breakpoints := d.breakpoints ++ [n] }
      | none => .error (.invalidValue option value)

def Draft.setFile (d : Draft) (file : String) : Except UsageError Draft :=
  match d.file with
  | some _ => .error (.unexpectedFile file)
  | none => if file = "" then .error (.invalidValue "FILE" file) else .ok { d with file }

/-- Sets the flags that the letters after a single hyphen stand for. -/
def Draft.setLetters (d : Draft) (argument : String) : List Char → Except UsageError Draft
  | [] => .ok d
  | letter :: letters =>
      match Flag.ofLetter? letter with
      | none => .error (.unknownArgument argument)
      | some flag => do (← d.setFlag argument flag).setLetters argument letters

/-- How an argument is to be understood. -/
inductive Argument where
  /-- Ends the options. -/
  | separator
  /-- An option by its name, with the value attached to it. -/
  | long (name : String) (attached : Option String)
  /-- Letters after a single hyphen. -/
  | short (letters : List Char)
  | file
  deriving DecidableEq, Repr

def Argument.ofText (argument : String) : Argument :=
  match argument.toList with
  | ['-', '-'] => .separator
  | '-' :: '-' :: text =>
      match Text.splitAtFirst '=' text with
      | some (name, value) => .long (String.ofList name) (some (String.ofList value))
      | none => .long (String.ofList text) none
  | ['-'] => .file
  | '-' :: letters => .short letters
  | _ => .file

def startsWithHyphen (argument : String) : Bool := argument.toList.head? = some '-'

def Draft.read (d : Draft) : List String → Except UsageError Draft
  | [] => .ok d
  | argument :: rest =>
      match Argument.ofText argument with
      | .separator => rest.foldlM Draft.setFile d
      | .file => do (← d.setFile argument).read rest
      | .short letters => do (← d.setLetters argument letters).read rest
      | .long name attached =>
          let option := "--" ++ name
          match Flag.ofName? name, Valued.ofName? name, attached with
          | some flag, _, none => do (← d.setFlag option flag).read rest
          | some _, _, some _ => .error (.unexpectedValue option)
          | none, some valued, some value => do (← d.setValue option value valued).read rest
          | none, some valued, none =>
              match rest with
              | [] => .error (.missingValue option)
              | value :: rest =>
                  if startsWithHyphen value then .error (.missingValue option)
                  else do (← d.setValue option value valued).read rest
          | none, none, _ => .error (.unknownArgument argument)

def parse (arguments : List String) : Except UsageError Options := do
  (← Draft.read {} arguments).complete

end Options

end FencedTape
