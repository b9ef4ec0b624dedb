import FencedTape.CommandLine.Folder
import FencedTape.CommandLine.Options
import FencedTape.Listing
import FencedTape.Shell.Session

/-! # Jobs

What the program does for a command line, as a function of the contents of the file and of the
input.  `Job.prepare` gets as far as a debugger that is ready to run, or ends the job before that;
`Job.report` is the whole job.  The outer layer that talks to real streams uses the same parts. -/

set_option autoImplicit false

namespace FencedTape

inductive Exit where
  | status (code : Nat)
  /-- The job is killed by an access to a position where there is no cell. -/
  | accessFault
  /-- The job has not come to an end within its limit. -/
  | running
  deriving DecidableEq, Repr

structure Report where
  exit : Exit
  output : List UInt8 := []
  errors : String := ""
  deriving DecidableEq, Repr

/-- The duration of a run and the instructions it carried out in a second, as they are printed. -/
structure Timing where
  elapsed : String := ""
  perSecond : String := ""
  deriving DecidableEq, Repr

namespace Job

def failure (message : String) : Report := { exit := .status 1, errors := message ++ "\n" }

def load (file : String) (contents : Except FileError (List UInt8)) : Except Report Program :=
  match contents with
  | .error e => .error (failure (file ++ ": " ++ e.message))
  | .ok bytes =>
      match Text.decode? bytes with
      | none => .error (failure (file ++ ": " ++ StreamError.notText.message))
      | some text =>
          (Program.ofListing (String.ofList text)).mapError fun e =>
            failure (file ++ ": " ++ e.message)

/-- Sets the breakpoints in order, up to the first that is out of bounds. -/
def setBreakpoints (d : Debugger) : List Nat → Except Report Debugger
  | [] => .ok d
  | address :: addresses =>
      match d.setBreakpoint? address with
      | some (d, _) => setBreakpoints d addresses
      | none =>
          .error (failure ("--break " ++ toString address ++ ": " ++
            (RequestError.outOfBounds address).message))

def prepare (host : Host) (o : Options) (contents : Except FileError (List UInt8))
    (source : Source) : Except Report Debugger := do
  let program ← load o.file contents
  if o.disasm then
    throw { exit := .status 0, output := program.toListing.toUTF8.toList }
  let machine ← (Machine.start host o.settings source {}).mapError fun e => failure e.report
  setBreakpoints { program, machine } o.breakpoints

def currentCell (d : Debugger) : String :=
  let dp := d.machine.dp.toInt
  match if 0 ≤ dp then d.peek? dp.toNat else none with
  | some value => toString value.toNat
  | none => "--"

def breakpointLine (d : Debugger) (address : Nat) : String :=
  Session.breakpointReport d.program address ++ ": dp=" ++ toString d.machine.dp.toInt ++
    " *dp=" ++ currentCell d ++ "\n"

def statistics (d : Debugger) (timing : Timing) : String :=
  "Run statistics:\n" ++
  "  Instructions:      " ++ toString d.program.size ++ "\n" ++
  "  Max loop depth:    " ++ toString d.program.maxDepth ++ "\n" ++
  "  Steps executed:    " ++ toString d.counter.toNat ++ "\n" ++
  "  Elapsed:" ++ timing.elapsed ++ "\n" ++
  "  Steps/sec:" ++ timing.perSecond ++ "\n"

/-- Runs to the end past all breakpoints, for at most `limit` turns, and adds a line to `errors`
for each breakpoint. -/
def watch : (limit : Nat) → Debugger → (errors : String) → Debugger × Progress × String
  | 0, d, errors => (d, .running, errors)
  | limit + 1, d, errors =>
      match d.advance with
      | (d, .running) => watch limit d errors
      | (d, .stopped address) => watch limit d (errors ++ breakpointLine d address)
      | (d, progress) => (d, progress, errors)

def runPlain (limit : Nat) (stats : Bool) (timing : Timing) (d : Debugger) : Report :=
  let (d, progress, errors) := watch limit d ""
  let output := d.machine.sink.output.toList
  match progress with
  | .finished =>
      { exit := .status 0
        output
        errors := if stats then errors ++ statistics d timing else errors }
  | .failed e =>
      { exit := .status 1, output, errors := errors ++ (RequestError.stream e).message ++ "\n" }
  | .fault _ => { exit := .accessFault, output, errors }
  | .stopped _ | .running => { exit := .running, output, errors }

/-- What the shell and the program wrote to the output that they share.  Within a turn the program
writes before the shell answers. -/
def sharedOutput (s : Session) : List UInt8 :=
  s.turns.flatMap fun turn => turn.output ++ (String.ofList turn.console).toUTF8.toList

def runShell (limit : Nat) (d : Debugger) : Report :=
  let (s, ending) := Session.run limit { debugger := d }
  let output := sharedOutput s
  let errors := String.ofList s.errors.toList
  match ending with
  | .ok => { exit := .status 0, output, errors }
  | .failed e =>
      { exit := .status 1, output, errors := errors ++ (RequestError.stream e).message ++ "\n" }
  | .fault _ => { exit := .accessFault, output, errors }
  | .running => { exit := .running, output, errors }

def report (limit : Nat) (host : Host) (o : Options)
    (contents : Except FileError (List UInt8)) (input : List UInt8) (timing : Timing) : Report :=
  match prepare host o contents { bytes := input } with
  | .error report => report
  | .ok d => if o.interactive then runShell limit d else runPlain limit o.stats timing d

end Job

end FencedTape
