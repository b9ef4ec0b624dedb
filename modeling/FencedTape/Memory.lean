import Std.Data.ExtTreeMap

/-! # Sparse memory

Bytes by address, all of them zero at first.  Only bytes other than zero are kept, so memories of
any size cost what was stored in them, and two memories are equal as soon as they agree at every
address. -/

set_option autoImplicit false

namespace FencedTape

/-- A byte for every address, zero unless stored. -/
structure Memory where
  cells : Std.ExtTreeMap Nat UInt8
  nonzero : ∀ address : Nat, cells[address]? ≠ some 0

namespace Memory

def zero : Memory where
  cells := ∅
  nonzero := by simp

def get (m : Memory) (address : Nat) : UInt8 := m.cells.getD address 0

def set (m : Memory) (address : Nat) (value : UInt8) : Memory :=
  if h : value = 0 then
    { cells := m.cells.erase address
      nonzero := fun a => by
        rw [Std.ExtTreeMap.getElem?_erase]
        split
        · simp
        · exact m.nonzero a }
  else
    { cells := m.cells.insert address value
      nonzero := fun a => by
        rw [Std.ExtTreeMap.getElem?_insert]
        split
        · simpa using h
        · exact m.nonzero a }

def setAll (m : Memory) (address : Nat) : List UInt8 → Memory
  | [] => m
  | value :: values => (m.set address value).setAll (address + 1) values

def consRun (cell : Nat × UInt8) : List (Nat × List UInt8) → List (Nat × List UInt8)
  | (start, bytes) :: runs =>
      if cell.1 + 1 = start then (cell.1, cell.2 :: bytes) :: runs
      else (cell.1, [cell.2]) :: (start, bytes) :: runs
  | [] => [(cell.1, [cell.2])]

/-- The maximal runs of bytes other than zero at the addresses below `bound`, in ascending order,
each with the address at which it starts. -/
def runs (m : Memory) (bound : Nat) : List (Nat × List UInt8) :=
  (m.cells.toList.filter fun cell => cell.1 < bound).foldr consRun []

@[simp] theorem get_zero (address : Nat) : zero.get address = 0 := by
  simp [zero, get]

@[grind =] theorem get_set (m : Memory) (address other : Nat) (value : UInt8) :
    (m.set address value).get other = if address = other then value else m.get other := by
  rw [set]
  split
  · next h => simp [get, Std.ExtTreeMap.getD_erase, h]
  · simp [get, Std.ExtTreeMap.getD_insert]

@[ext] theorem ext_get {m n : Memory} (h : ∀ address, m.get address = n.get address) : m = n := by
  have cells : m.cells = n.cells := by
    apply Std.ExtTreeMap.ext_getElem?
    intro address
    have agree := h address
    have hm := m.nonzero address
    have hn := n.nonzero address
    simp only [get, Std.ExtTreeMap.getD_eq_getD_getElem?] at agree
    cases left : m.cells[address]? with
    | none =>
        cases right : n.cells[address]? with
        | none => rfl
        | some b => simp_all
    | some a =>
        cases right : n.cells[address]? with
        | none => simp_all
        | some b => simp_all
  cases m
  cases n
  cases cells
  rfl

instance : DecidableEq Memory := fun m n =>
  decidable_of_iff (m.cells = n.cells)
    ⟨fun h => ext_get fun address => by simp [get, h], fun h => by rw [h]⟩

end Memory

end FencedTape
