import FencedTape.CommandLine.Job

/-! # The program

Reads the command line and the file, and lets the machine talk to the standard streams.  Everything
that decides anything is in the modules below; here bytes are fetched when an instruction asks for
them, and written as soon as they have been emitted. -/

set_option autoImplicit false

namespace FencedTape.Terminal

/-- What stands for the operating system's memory: pages of 4096 bytes, and no reservation of 2^47
bytes or more. -/
def host : Host where
  pageSize := 4096
  reserve length :=
    if length < 0x800000000000 then .ok 0x10000 else .error "Cannot allocate memory (os error 12)"
  refusesProtect _ := none
  refusesRelease := none
  isPowerOfTwo_pageSize := Host.isPowerOfTwo_4096
  grants_lt length base granted := by
    split at granted
    · next small =>
        rw [UInt64.lt_iff_toNat_lt] at small
        exact Nat.lt_trans small (by decide)
    · cases granted

def faultStatus : UInt32 := 139

def put (text : String) : IO Unit := do
  let out ← IO.getStdout
  out.putStr text
  out.flush

def putBytes (bytes : List UInt8) : IO Unit := do
  let out ← IO.getStdout
  out.write bytes.toByteArray
  out.flush

def complain (text : String) : IO Unit := do (← IO.getStderr).putStr text

def setInput (d : Debugger) (bytes : List UInt8) : Debugger :=
  let source := { d.machine.source with bytes }
  { d with machine := { d.machine with source } }

def feed (d : Debugger) : IO Debugger := do
  match d.program.get? d.ip, d.machine.source.bytes with
  | some (.act (.read _)), [] => return setInput d (← (← IO.getStdin).read 1).toList
  | _, _ => return d

def drain (d : Debugger) : IO Debugger := do
  let sink := d.machine.sink
  if sink.output.isEmpty then
    return d
  putBytes sink.output.toList
  return { d with machine := { d.machine with sink := { sink with output := #[] } } }

partial def run (d : Debugger) : IO (Debugger × Progress) := do
  let d ← if d.atBreakpoint then pure d else feed d
  let (d, progress) := d.advance
  let d ← drain d
  match progress with
  | .running => run d
  | _ => return (d, progress)

/-- Takes the bytes up to the next line feed, those already fetched first. -/
partial def takeLine (fetched line : List UInt8) : IO (List UInt8 × List UInt8) := do
  match fetched with
  | 10 :: rest => return ((10 :: line).reverse, rest)
  | b :: rest => takeLine rest (b :: line)
  | [] =>
      match (← (← IO.getStdin).read 1).toList with
      | [] => return (line.reverse, [])
      | bytes => takeLine bytes line

def ask (d : Debugger) : Request → IO (Debugger × Reply)
  | .run => do
      let (d, progress) ← run d
      return (d, .ofProgress progress)
  | request => do
      let d ← if request = .step then feed d else pure d
      let (d, reply) := d.handle 0 request
      return (← drain d, reply)

partial def shell (d : Debugger) : IO UInt32 := do
  put Session.prompt
  let (line, rest) ← takeLine d.machine.source.bytes []
  let d := setInput d rest
  if line.isEmpty then
    return 0
  match (Text.decode? line).map Text.trim with
  | none =>
      complain ((RequestError.stream .notText).message ++ "\n")
      return 1
  | some [] => shell d
  | some text =>
      match Command.parse (String.ofList text) with
      | .error e =>
          complain (e.message ++ "\n")
          shell d
      | .ok .help =>
          put Session.help
          shell d
      | .ok .quit =>
          put Session.confirmation
          return 0
      | .ok (.ask request) =>
          match ← ask d request with
          | (_, .fault _) => return faultStatus
          | (d, .refused e) =>
              complain (e.message ++ "\n")
              shell d
          | (d, reply) =>
              put (Session.answer d.program request reply)
              shell d

/-- A duration with two decimals, in the largest unit of which it has at least one. -/
def duration (nanoseconds : Nat) : String :=
  let (unit, scale) :=
    if nanoseconds < 1000 then ("ns", 1)
    else if nanoseconds < 1000000 then ("µs", 1000)
    else if nanoseconds < 1000000000 then ("ms", 1000000)
    else ("s", 1000000000)
  let hundredths := (100 * nanoseconds + scale / 2) / scale
  let decimals := toString (100 + hundredths % 100)
  toString (hundredths / 100) ++ "." ++ String.ofList (decimals.toList.drop 1) ++ unit

def timing (steps nanoseconds : Nat) : Timing where
  elapsed := "           " ++ duration nanoseconds
  perSecond := "         " ++ toString (1000000000 * steps / max nanoseconds 1)

partial def watch (d : Debugger) : IO (Debugger × Progress) := do
  match ← run d with
  | (d, .stopped address) =>
      complain (Job.breakpointLine d address)
      watch d
  | stop => return stop

def plain (d : Debugger) (stats : Bool) : IO UInt32 := do
  let start ← IO.monoNanosNow
  let (d, progress) ← watch d
  let stop ← IO.monoNanosNow
  match progress with
  | .failed e =>
      complain ((RequestError.stream e).message ++ "\n")
      return 1
  | .fault _ => return faultStatus
  | _ =>
      if stats then
        complain (Job.statistics d (timing d.counter.toNat (stop - start)))
      return 0

/-- The number of a host error, which comes with either sign. -/
def magnitude (code : UInt32) : UInt32 := if code < 0x80000000 then code else 0 - code

def contents (file : String) : IO (Except FileError (List UInt8)) := do
  try
    return .ok (← IO.FS.readBinFile file).toList
  catch e =>
    match e with
    | .noFileOrDirectory _ _ _ => return .error .notFound
    | .inappropriateType _ code _ =>
        return .error (if magnitude code = 21 then .isFolder else .notFolder)
    | .invalidArgument _ code _ =>
        return .error (if magnitude code = 36 then .nameTooLong else .other (toString e))
    | _ => return .error (.other (toString e))

def job (o : Options) : IO UInt32 := do
  match Job.prepare host o (← contents o.file) {} with
  | .error report =>
      putBytes report.output
      complain report.errors
      return if report.exit = .status 0 then 0 else 1
  | .ok d =>
      if o.interactive then
        put Session.welcome
        shell d
      else
        plain d o.stats

end FencedTape.Terminal

open FencedTape in
def main (arguments : List String) : IO UInt32 := do
  match Options.parse arguments with
  | .error .helpWanted =>
      Terminal.put Options.usage
      return 0
  | .error e =>
      Terminal.complain ("error: " ++ e.message ++ "\n\n" ++ Options.usage)
      return 2
  | .ok options =>
      try
        Terminal.job options
      catch e =>
        Terminal.complain ((RequestError.stream (.failed (toString e))).message ++ "\n")
        return 1
