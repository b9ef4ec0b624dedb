import FencedTape.Machine
import FencedTape.Program
import Std.Data.ExtTreeSet

/-! # The debugger

A debugger runs a program on a machine.  It holds the address of the next instruction, the
breakpoints, the breakpoint at which it is paused and the number of instructions carried out.

A run stops before an instruction with a breakpoint, and the pause mark lets the next run go past
it; the mark is gone once an instruction has been carried out or control has been moved.  An
instruction whose stream fails has not been carried out.  `Debugger.advance` is one turn of a run,
and `Debugger.run` takes turns up to a given number of them, since a program need not end. -/

set_option autoImplicit false

namespace FencedTape

structure Debugger where
  program : Program
  machine : Machine
  /-- The address of the next instruction. -/
  ip : Nat := 0
  breakpoints : Std.ExtTreeSet Nat := ∅
  /-- The breakpoint that was reported on arriving at the next instruction. -/
  pausedAt : Option Nat := none
  /-- The number of instructions carried out; both ends of a loop count.  What is shown of it is
  `counter`, which is exact below 2^64. -/
  steps : Nat := 0
  deriving DecidableEq

inductive Progress where
  /-- There is more to run. -/
  | running
  /-- The program has ended. -/
  | finished
  /-- The next instruction has a breakpoint. -/
  | stopped (address : Nat)
  /-- The next instruction could not be carried out, because of its stream. -/
  | failed (e : StreamError)
  /-- The next instruction accessed a position where there is no cell. -/
  | fault (position : Int64)
  deriving DecidableEq, Repr

namespace Debugger

def counter (d : Debugger) : UInt64 := UInt64.ofNat d.steps

def isDone (d : Debugger) : Bool := d.program.size ≤ d.ip

def arrive (d : Debugger) (address : Nat) : Debugger :=
  { d with ip := address, pausedAt := none, steps := d.steps + 1 }

def branch (d : Debugger) (ifZero ifNonzero : Nat) : Debugger × Outcome :=
  match d.machine.tape.load? d.machine.dp with
  | none => (d, .fault d.machine.dp)
  | some value => (d.arrive (if value = 0 then ifZero else ifNonzero), .done)

def step (d : Debugger) : Debugger × Outcome :=
  match d.program.get? d.ip with
  | none => (d, .done)
  | some (.act action) =>
      match d.machine.perform action with
      | (machine, .done) => ({ d with machine }.arrive (d.ip + 1), .done)
      | (machine, outcome) => ({ d with machine }, outcome)
  | some .loopOpen => d.branch (d.program.jumpTarget d.ip) (d.ip + 1)
  | some .loopClose => d.branch (d.ip + 1) (d.program.jumpTarget d.ip)

/-- Whether a run stops here before it carries out anything. -/
def atBreakpoint (d : Debugger) : Bool :=
  d.ip < d.program.size && d.pausedAt ≠ some d.ip && d.breakpoints.contains d.ip

def advance (d : Debugger) : Debugger × Progress :=
  if d.isDone then (d, .finished)
  else if d.atBreakpoint then ({ d with pausedAt := some d.ip }, .stopped d.ip)
  else match d.step with
    | (d, .done) => (d, .running)
    | (d, .failed e) => (d, .failed e)
    | (d, .fault position) => (d, .fault position)

/-- Runs until the program ends or something stops it, for at most `limit` turns. -/
def run : (limit : Nat) → Debugger → Debugger × Progress
  | 0, d => (d, .running)
  | limit + 1, d =>
      match d.advance with
      | (d, .running) => run limit d
      | stop => stop

/-- Sets a breakpoint and says whether it was new, if the program reaches that far. -/
def setBreakpoint? (d : Debugger) (address : Nat) : Option (Debugger × Bool) :=
  if address < d.program.size then
    some ({ d with breakpoints := d.breakpoints.insert address }, !d.breakpoints.contains address)
  else none

/-- Removes a breakpoint and says whether there was one. -/
def deleteBreakpoint (d : Debugger) (address : Nat) : Debugger × Bool :=
  ({ d with breakpoints := d.breakpoints.erase address }, d.breakpoints.contains address)

def peek? (d : Debugger) (index : Nat) : Option UInt8 :=
  if index < d.machine.tape.len then some (d.machine.tape.cells.get index) else none

/-- Stores a byte at an index of the tape and gives the byte that was there. -/
def poke? (d : Debugger) (index : Nat) (value : UInt8) : Option (Debugger × UInt8) :=
  (d.peek? index).map fun old =>
    ({ d with machine := { d.machine with tape := d.machine.tape.setCell index value } }, old)

def jump? (d : Debugger) (address : Nat) : Option Debugger :=
  if address < d.program.size then some { d with ip := address, pausedAt := none } else none

def setPointer (d : Debugger) (index : Nat) : Debugger :=
  { d with machine := d.machine.setPointer index }

def select? (d : Debugger) (index : Nat) : Option Debugger :=
  if index < d.machine.tape.len then some (d.setPointer index) else none

/-! ## The counter -/

theorem toNat_counter {d : Debugger} (h : d.steps < 0x10000000000000000) :
    d.counter.toNat = d.steps :=
  UInt64.toNat_ofNat_of_lt' h

@[simp] theorem counter_arrive (d : Debugger) (address : Nat) :
    (d.arrive address).counter = d.counter + 1 :=
  UInt64.ofNat_add d.steps 1

/-! ## Runs and their limits -/

@[simp] theorem run_zero (d : Debugger) : run 0 d = (d, .running) := rfl

theorem run_succ_of_running {d e : Debugger} (h : d.advance = (e, .running)) (limit : Nat) :
    run (limit + 1) d = run limit e := by
  rw [run, h]

theorem run_succ_of_stop {d : Debugger} (h : d.advance.2 ≠ .running) (limit : Nat) :
    run (limit + 1) d = d.advance := by
  rw [run]
  split
  · next eq => exact absurd (congrArg Prod.snd eq) h
  · rfl

theorem run_add (m n : Nat) (d : Debugger) :
    run (m + n) d = match run m d with
      | (e, .running) => run n e
      | stop => stop := by
  induction m generalizing d with
  | zero => simp
  | succ m ih =>
      rw [Nat.succ_add, run, run]
      split
      · exact ih _
      · next stop h =>
          split
          · next e heq => exact absurd heq (h e)
          · rfl

/-- A larger limit does not change how a run ends. -/
theorem run_of_le {m n : Nat} {d : Debugger} (h : (run m d).2 ≠ .running) (le : m ≤ n) :
    run n d = run m d := by
  obtain ⟨k, rfl⟩ := Nat.exists_eq_add_of_le le
  rw [run_add]
  split
  · next e eq => exact absurd (congrArg Prod.snd eq) h
  · rfl

theorem program_step (d : Debugger) : d.step.1.program = d.program := by
  simp only [step, branch, arrive]
  split
  · rfl
  · split <;> rfl
  · split <;> rfl
  · split <;> rfl

theorem breakpoints_step (d : Debugger) : d.step.1.breakpoints = d.breakpoints := by
  simp only [step, branch, arrive]
  split
  · rfl
  · split <;> rfl
  · split <;> rfl
  · split <;> rfl

end Debugger

end FencedTape
