import FencedTape.Shell.Command
import FencedTape.Shell.Console
import FencedTape.Text.Bytes

/-! # Sessions of the shell

A session asks for lines and answers them until it is told to quit or the lines end.  Lines come
from a text of their own or from the program's input, which the program may then read between two
lines.  Answers go to the console and complaints to the error stream; only an error of the console
or of the line source ends a session early.  The session notes how much had been written each time
it asked for a line, so that what was written can be told apart turn by turn. -/

set_option autoImplicit false

namespace FencedTape

structure Mark where
  console : Nat := 0
  errors : Nat := 0
  output : Nat := 0
  flushes : Nat := 0
  deriving DecidableEq, Repr

structure Turn where
  console : List Char
  errors : List Char
  output : List UInt8
  flushes : Nat
  deriving DecidableEq, Repr

structure Session where
  debugger : Debugger
  console : Console := {}
  /-- Everything written to the error stream. -/
  errors : Array Char := #[]
  /-- The bytes of the lines; `none` if they are those of the program's input. -/
  lines : Option (List UInt8) := none
  /-- The number of requests for a line before the one that fails, and why that fails. -/
  lineFailure : Option (Nat × String) := none
  /-- The moments at which a line was asked for, the latest first. -/
  marks : List Mark := []
  deriving DecidableEq

inductive Ending where
  | ok
  | failed (e : StreamError)
  /-- The program accessed a position where there is no cell, which ends everything. -/
  | fault (position : Int64)
  /-- The program has not come to an end within its limit. -/
  | running
  deriving DecidableEq, Repr

inductive Asked where
  | line (text : List Char)
  | ended
  | failed (e : StreamError)
  deriving DecidableEq, Repr

namespace Session

def welcome : String := "Welcome to guardtape! Type `help` for more information.\n"

def prompt : String := "> "

def help : String :=
  "Commands:\n" ++
  "    help (h)\n" ++
  "    quit (q)\n" ++
  "    run (r)\n" ++
  "    break (b) ADDRESS\n" ++
  "    delete (d) ADDRESS\n" ++
  "    step (s)\n" ++
  "    print (p) ADDRESS\n" ++
  "    assign (a) ADDRESS BYTE\n" ++
  "    jump (j) ADDRESS\n" ++
  "    select ADDRESS\n"

def confirmation : String := "OK\n"

def breakpointReport (p : Program) (address : Nat) : String :=
  "Hit breakpoint at " ++ toString address ++
    match p.get? address with
    | some instr => " (" ++ instr.describe ++ ")"
    | none => ""

def answer (p : Program) : Request → Reply → String
  | .step, _ => ""
  | .peek _, .value v => toString v.toNat ++ "\n"
  | _, .stopped address => breakpointReport p address ++ "\n"
  | _, _ => confirmation

def unread (s : Session) : List UInt8 := s.lines.getD s.debugger.machine.source.bytes

def setUnread (s : Session) (bytes : List UInt8) : Session :=
  match s.lines with
  | some _ => { s with lines := some bytes }
  | none =>
      let machine := s.debugger.machine
      let source := { machine.source with bytes }
      { s with debugger := { s.debugger with machine := { machine with source } } }

def mark (s : Session) : Mark where
  console := s.console.text.size
  errors := s.errors.size
  output := s.debugger.machine.sink.output.size
  flushes := s.debugger.machine.sink.flushes

/-- Writes to the console and goes on as `next` says, unless the console fails. -/
def say (s : Session) (text : String) (next : Option Ending) : Session × Option Ending :=
  match s.console.write text.toList with
  | (none, console) => ({ s with console }, next)
  | (some e, console) => ({ s with console }, some (.failed e))

def complain (s : Session) (message : String) : Session :=
  { s with errors := (s.errors ++ message.toList).push '\n' }

def ask (limit : Nat) (s : Session) (request : Request) : Session × Option Ending :=
  let (debugger, reply) := s.debugger.handle limit request
  let s := { s with debugger }
  match reply with
  | .refused e => (s.complain e.message, none)
  | .fault position => (s, some (.fault position))
  | .running => (s, some .running)
  | reply => s.say (answer s.debugger.program request reply) none

def obey (limit : Nat) (s : Session) : Command → Session × Option Ending
  | .help => s.say help none
  | .quit => s.say confirmation (some .ok)
  | .ask request => s.ask limit request

def answerLine (limit : Nat) (s : Session) (line : List Char) : Session × Option Ending :=
  match Text.trim line with
  | [] => (s, none)
  | c :: rest =>
      match Command.parse (String.ofList (c :: rest)) with
      | .ok command => s.obey limit command
      | .error e => (s.complain e.message, none)

/-- Asks for a line.  A line that is not a text is taken all the same. -/
def nextLine (s : Session) : Session × Asked :=
  match s.lineFailure with
  | some (0, cause) => ({ s with lineFailure := none }, .failed (.failed cause))
  | failure =>
      let s := { s with lineFailure := failure.map fun (requests, cause) => (requests - 1, cause) }
      match s.unread with
      | [] => (s, .ended)
      | bytes =>
          let (line, rest) := Text.splitLine bytes
          match Text.decode? line with
          | some text => (s.setUnread rest, .line text)
          | none => (s.setUnread rest, .failed .notText)

def showPrompt (s : Session) : Session × Option Ending :=
  match s.say prompt none with
  | (s, some ending) => (s, some ending)
  | (s, none) =>
      match s.console.flush with
      | (none, console) => ({ s with console }, none)
      | (some e, console) => ({ s with console }, some (.failed e))

def turn (limit : Nat) (s : Session) : Session × Option Ending :=
  match s.showPrompt with
  | (s, some ending) => (s, some ending)
  | (s, none) =>
      match { s with marks := s.mark :: s.marks }.nextLine with
      | (s, .ended) => (s, some .ok)
      | (s, .failed e) => (s, some (.failed e))
      | (s, .line text) => s.answerLine limit text

def converse (limit : Nat) : (count : Nat) → Session → Session × Ending
  | 0, s => (s, .running)
  | count + 1, s =>
      match s.turn limit with
      | (s, none) => converse limit count s
      | (s, some ending) => (s, ending)

/-- A whole session, in which each run takes at most `limit` turns of its own.  Every line takes
at least one byte, so there are no more turns than bytes, and one to find that there are none. -/
def run (limit : Nat) (s : Session) : Session × Ending :=
  match s.say welcome none with
  | (s, some ending) => (s, ending)
  | (s, none) => s.converse limit (s.unread.length + 1)

def between (s : Session) (a b : Mark) : Turn where
  console := (s.console.text.extract a.console b.console).toList
  errors := (s.errors.extract a.errors b.errors).toList
  output := (s.debugger.machine.sink.output.extract a.output b.output).toList
  flushes := b.flushes - a.flushes

/-- What was written from moment `a` on, cut at the later moments given. -/
def turnsFrom (s : Session) (a : Mark) : List Mark → List Turn
  | [] => [s.between a s.mark]
  | b :: marks => s.between a b :: turnsFrom s b marks

/-- What was written, cut at the moments at which a line was asked for. -/
def turns (s : Session) : List Turn := s.turnsFrom {} s.marks.reverse

end Session

end FencedTape
