import FencedTape.Reservation
import FencedTape.Stream
import FencedTape.Tape

/-! # The tape machine

A machine is a tape, a data pointer and the two streams of the program that it serves.  The data
pointer is a signed word that wraps and may be anywhere; only accesses through it can fault.
`Machine.perform` carries out one action, and always says in which state it leaves the machine. -/

set_option autoImplicit false

namespace FencedTape

inductive EndPolicy where
  /-- Stores this byte. -/
  | sentinel (value : UInt8)
  /-- Stores nothing. -/
  | unchanged
  deriving DecidableEq, Repr

structure Settings where
  tapeSize : UInt64 := 30000
  atEnd : EndPolicy := .sentinel 255
  deriving DecidableEq, Repr

structure Machine where
  tape : Tape
  dp : Int64
  atEnd : EndPolicy
  source : Source
  sink : Sink
  deriving DecidableEq

inductive Outcome where
  | done
  | failed (e : StreamError)
  /-- The action accessed a position where there is no cell. -/
  | fault (position : Int64)
  deriving DecidableEq, Repr

namespace Machine

/-- A machine with a fresh tape, every cell of which is zero, and the data pointer at its start. -/
def start (host : Host) (settings : Settings) (source : Source) (sink : Sink) :
    Except ReservationError Machine :=
  match h : Reservation.acquire host.toBackend settings.tapeSize with
  | (.error e, _) => .error e
  | (.ok r, _) =>
      have bounds := Reservation.bounds_of_acquire h
      .ok
        { tape := .blank r.len.toNat r.usable.toNat bounds.1 bounds.2
          dp := 0
          atEnd := settings.atEnd
          source
          sink }

def store (m : Machine) (position : Int64) (value : UInt8) : Machine × Outcome :=
  match m.tape.store? position value with
  | some tape => ({ m with tape }, .done)
  | none => (m, .fault position)

def update (m : Machine) (position : Int64) (f : UInt8 → UInt8) : Machine × Outcome :=
  match m.tape.load? position with
  | some value => m.store position (f value)
  | none => (m, .fault position)

/-- Asks for a byte and stores it.  The byte is taken before the cell is accessed. -/
def read (m : Machine) (position : Int64) : Machine × Outcome :=
  match m.source.receive with
  | (.byte value, source) => { m with source }.store position value
  | (.ended, source) =>
      match m.atEnd with
      | .sentinel value => { m with source }.store position value
      | .unchanged => ({ m with source }, .done)
  | (.failed e, source) => ({ m with source }, .failed e)

def write (m : Machine) (position : Int64) : Machine × Outcome :=
  match m.tape.load? position with
  | none => (m, .fault position)
  | some value =>
      match m.sink.emit value with
      | (none, sink) => ({ m with sink }, .done)
      | (some e, sink) => ({ m with sink }, .failed e)

def perform (m : Machine) : Action → Machine × Outcome
  | .adjust offset delta => m.update (m.dp + offset) (· + delta)
  | .select delta => ({ m with dp := m.dp + delta }, .done)
  | .read offset => m.read (m.dp + offset)
  | .write offset => m.write (m.dp + offset)
  | .set offset value => m.store (m.dp + offset) value
  | .multiplyAdd offset factor =>
      match m.tape.load? m.dp with
      | some value => m.update (m.dp + offset) (· + value * factor)
      | none => (m, .fault m.dp)
  | .scan direction =>
      match m.tape.scan m.dp direction with
      | .ok dp => ({ m with dp }, .done)
      | .error position => (m, .fault position)

/-- Points the data pointer at a cell, without checking that there is one. -/
def setPointer (m : Machine) (index : Nat) : Machine := { m with dp := Int64.ofNat index }

/-! ## What an action leaves alone -/

/-- The sizes of the tape and the end policy, which no action changes. -/
def fixed (m : Machine) : Nat × Nat × EndPolicy := (m.tape.len, m.tape.usable, m.atEnd)

theorem fixed_store (m : Machine) (position : Int64) (value : UInt8) :
    (m.store position value).1.fixed = m.fixed := by
  rw [store]
  split
  · next h =>
      obtain ⟨index, -, rfl⟩ := Option.map_eq_some_iff.1 h
      rfl
  · rfl

theorem fixed_update (m : Machine) (position : Int64) (f : UInt8 → UInt8) :
    (m.update position f).1.fixed = m.fixed := by
  rw [update]
  split
  · exact fixed_store m position _
  · rfl

theorem fixed_read (m : Machine) (position : Int64) :
    (m.read position).1.fixed = m.fixed := by
  rw [read]
  split
  · exact fixed_store _ position _
  · split
    · exact fixed_store _ position _
    · rfl
  · rfl

theorem fixed_write (m : Machine) (position : Int64) :
    (m.write position).1.fixed = m.fixed := by
  rw [write]
  split
  · rfl
  · split <;> rfl

theorem fixed_perform (m : Machine) (action : Action) :
    (m.perform action).1.fixed = m.fixed := by
  cases action with
  | adjust offset delta => exact fixed_update m _ _
  | select delta => rfl
  | read offset => exact fixed_read m _
  | write offset => exact fixed_write m _
  | set offset value => exact fixed_store m _ value
  | multiplyAdd offset factor =>
      rw [perform]
      split
      · exact fixed_update m _ _
      · rfl
  | scan direction =>
      rw [perform]
      split <;> rfl

end Machine

end FencedTape
