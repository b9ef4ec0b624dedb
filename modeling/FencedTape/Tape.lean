import FencedTape.Instr
import FencedTape.Memory

/-! # Tapes

A tape has a length, which is what its user asked for, and a usable length, which is that rounded
up to whole pages.  Positions are signed words counted from the first cell.  Every position below
the usable length can be accessed, the cells past the tape included; an access anywhere else is a
fault.  Main statements: what a store does to later loads, that the two searches find the nearest
zero, and that going from cell to cell comes to the same as a search over all usable cells. -/

set_option autoImplicit false

namespace FencedTape

/-- Cells that can be accessed from 0 up to the usable length.  Positions on either side fit in a
signed word. -/
structure Tape where
  len : Nat
  usable : Nat
  cells : Memory
  len_le_usable : len ≤ usable
  usable_lt : usable < 0x8000000000000000
  deriving DecidableEq

namespace Tape

def blank (len usable : Nat) (len_le_usable : len ≤ usable)
    (usable_lt : usable < 0x8000000000000000) : Tape :=
  { len, usable, cells := .zero, len_le_usable, usable_lt }

def blank? (len usable : Nat) : Option Tape :=
  if h : len ≤ usable ∧ usable < 0x8000000000000000 then some (blank len usable h.1 h.2)
  else none

/-- The cell at a position that can be accessed. -/
def index? (t : Tape) (position : Int64) : Option Nat :=
  if 0 ≤ position.toInt ∧ position.toInt < t.usable then some position.toInt.toNat else none

def load? (t : Tape) (position : Int64) : Option UInt8 := (t.index? position).map t.cells.get

def setCell (t : Tape) (index : Nat) (value : UInt8) : Tape :=
  { t with cells := t.cells.set index value }

def store? (t : Tape) (position : Int64) (value : UInt8) : Option Tape :=
  (t.index? position).map fun index => t.setCell index value

def fill (t : Tape) (index : Nat) (values : List UInt8) : Tape :=
  { t with cells := t.cells.setAll index values }

def runs (t : Tape) : List (Nat × List UInt8) := t.cells.runs t.len

def zeroDown (m : Memory) : (index : Nat) → Option Nat
  | 0 => if m.get 0 = 0 then some 0 else none
  | index + 1 => if m.get (index + 1) = 0 then some (index + 1) else zeroDown m index

def zeroUp (m : Memory) (index : Nat) : (count : Nat) → Option Nat
  | 0 => none
  | count + 1 => if m.get index = 0 then some index else zeroUp m (index + 1) count

def tapeIndex? (t : Tape) (position : Int64) : Option Nat :=
  if 0 ≤ position.toInt ∧ position.toInt < t.len then some position.toInt.toNat else none

/-- Where a search among the cells of the tape ends that starts at one of them: at the nearest zero,
or just outside the tape. -/
def nearestZero (t : Tape) (index : Nat) : Direction → Int64
  | .left =>
      match zeroDown t.cells index with
      | some found => Int64.ofNat found
      | none => -1
  | .right =>
      match zeroUp t.cells index (t.len - index) with
      | some found => Int64.ofNat found
      | none => Int64.ofNat t.len

/-- Goes from cell to cell until one is zero, and faults where there is none.  It gives up after
`count` turns, which never happens if there are more turns than usable cells. -/
def stepUntilZero (t : Tape) (direction : Direction) : (count : Nat) → Int64 → Except Int64 Int64
  | 0, position => .error position
  | count + 1, position =>
      match t.load? position with
      | none => .error position
      | some value =>
          if value = 0 then .ok position
          else stepUntilZero t direction count (position + direction.delta)

/-- Where a scan from a position ends, or the position at which it faults.  The cell there is looked
at first.  A scan that starts on the tape stays on it, and one that starts past the tape goes on
until it finds a zero or leaves the usable cells. -/
def scan (t : Tape) (position : Int64) (direction : Direction) : Except Int64 Int64 :=
  match t.load? position with
  | none => .error position
  | some value =>
      if value = 0 then .ok position
      else match t.tapeIndex? position with
        | some index => .ok (t.nearestZero index direction)
        | none => t.stepUntilZero direction (t.usable + 1) position

theorem index?_eq_some_iff {t : Tape} {position : Int64} {index : Nat} :
    t.index? position = some index ↔ position.toInt = index ∧ index < t.usable := by
  rw [index?]
  split
  · simp only [Option.some.injEq]
    omega
  · simp only [reduceCtorEq, false_iff]
    omega

theorem index?_ofNat {t : Tape} {index : Nat} (h : index < t.usable) :
    t.index? (Int64.ofNat index) = some index := by
  have bound := t.usable_lt
  rw [index?_eq_some_iff]
  exact ⟨Int64.toInt_ofNat_of_lt (Nat.lt_trans h bound), h⟩

theorem index?_eq_none_iff {t : Tape} {position : Int64} :
    t.index? position = none ↔ ¬ (0 ≤ position.toInt ∧ position.toInt < t.usable) := by
  rw [index?]
  split
  · next inside => simp [inside]
  · next outside => simp [outside]

theorem index?_neg_one (t : Tape) : t.index? (-1) = none := by
  rw [index?_eq_none_iff]
  rintro ⟨nonneg, -⟩
  exact absurd nonneg (by decide)

theorem index?_usable (t : Tape) : t.index? (Int64.ofNat t.usable) = none := by
  have value : (Int64.ofNat t.usable).toInt = t.usable := Int64.toInt_ofNat_of_lt t.usable_lt
  rw [index?_eq_none_iff]
  omega

theorem eq_ofNat_of_index? {t : Tape} {position : Int64} {index : Nat}
    (h : t.index? position = some index) : position = Int64.ofNat index := by
  obtain ⟨value, inside⟩ := index?_eq_some_iff.mp h
  have bound := t.usable_lt
  apply Int64.toInt_inj.mp
  rw [value, Int64.toInt_ofNat_of_lt (Nat.lt_trans inside bound)]

theorem ofNat_succ_left (index : Nat) :
    Int64.ofNat (index + 1) + Direction.delta .left = Int64.ofNat index := by
  have back : Int64.ofNat index + 1 + -1 = Int64.ofNat index := by
    rw [Int64.add_assoc]
    exact Int64.add_zero _
  rw [Int64.ofNat_add]
  exact back

theorem ofNat_right (index : Nat) :
    Int64.ofNat index + Direction.delta .right = Int64.ofNat (index + 1) :=
  (Int64.ofNat_add index 1).symm

/-- A load after a store gives the byte stored, or what was there if it is from another cell. -/
theorem load?_of_store? {t u : Tape} {position other : Int64} {value : UInt8}
    (h : t.store? position value = some u) :
    u.load? other = if position = other then some value else t.load? other := by
  obtain ⟨index, hi, rfl⟩ := Option.map_eq_some_iff.1 h
  have same : (t.setCell index value).index? other = t.index? other := rfl
  rw [load?, same]
  split
  · next eq =>
      subst eq
      simp [hi, setCell, Memory.get_set]
  · next ne =>
      rw [load?]
      cases ho : t.index? other with
      | none => rfl
      | some j =>
          have differ : index ≠ j := by
            rintro rfl
            rw [index?_eq_some_iff] at hi ho
            exact ne (Int64.toInt_inj.1 (hi.1.trans ho.1.symm))
          simp [setCell, Memory.get_set, differ]

theorem zeroDown_eq_some_iff {m : Memory} {index found : Nat} :
    zeroDown m index = some found ↔
      found ≤ index ∧ m.get found = 0 ∧ ∀ i, found < i → i ≤ index → m.get i ≠ 0 := by
  induction index with
  | zero =>
      rw [zeroDown]
      split
      · next h => grind
      · next h => grind
  | succ index ih =>
      rw [zeroDown]
      split
      · next h => grind
      · next h => grind

theorem zeroDown_eq_none_iff {m : Memory} {index : Nat} :
    zeroDown m index = none ↔ ∀ i, i ≤ index → m.get i ≠ 0 := by
  induction index with
  | zero =>
      rw [zeroDown]
      split
      · next h => grind
      · next h => grind
  | succ index ih =>
      rw [zeroDown]
      split
      · next h => grind
      · next h => grind

theorem zeroUp_eq_some_iff {m : Memory} {index count found : Nat} :
    zeroUp m index count = some found ↔
      index ≤ found ∧ found < index + count ∧ m.get found = 0 ∧
        ∀ i, index ≤ i → i < found → m.get i ≠ 0 := by
  induction count generalizing index with
  | zero => simp [zeroUp]; omega
  | succ count ih =>
      rw [zeroUp]
      split
      · next h => grind
      · next h => grind

theorem zeroUp_eq_none_iff {m : Memory} {index count : Nat} :
    zeroUp m index count = none ↔ ∀ i, index ≤ i → i < index + count → m.get i ≠ 0 := by
  induction count generalizing index with
  | zero => simp [zeroUp]; omega
  | succ count ih =>
      rw [zeroUp]
      split
      · next h => grind
      · next h => grind

/-! ## The loop and the search -/

theorem load?_of_index? {t : Tape} {position : Int64} {index : Nat}
    (found : t.index? position = some index) : t.load? position = some (t.cells.get index) := by
  rw [load?, found, Option.map_some]

theorem load?_of_outside {t : Tape} {position : Int64} (outside : t.index? position = none) :
    t.load? position = none := by
  rw [load?, outside, Option.map_none]

theorem stepUntilZero_of_index? {t : Tape} {position : Int64} {index : Nat}
    (found : t.index? position = some index) (direction : Direction) (count : Nat) :
    t.stepUntilZero direction (count + 1) position =
      if t.cells.get index = 0 then .ok position
      else t.stepUntilZero direction count (position + direction.delta) := by
  rw [stepUntilZero, load?_of_index? found]

theorem stepUntilZero_of_outside {t : Tape} {position : Int64}
    (outside : t.index? position = none) (direction : Direction) (count : Nat) :
    t.stepUntilZero direction count position = .error position := by
  cases count with
  | zero => rfl
  | succ count => rw [stepUntilZero, load?_of_outside outside]

/-- The loop to the left ends where a search down to the first cell does. -/
theorem stepUntilZero_left {t : Tape} {index count : Nat} (inside : index < t.usable)
    (enough : index < count) :
    t.stepUntilZero .left count (Int64.ofNat index) = match zeroDown t.cells index with
      | some found => .ok (Int64.ofNat found)
      | none => .error (-1) := by
  obtain ⟨count, rfl⟩ : ∃ more, count = more + 1 := ⟨count - 1, by omega⟩
  rw [stepUntilZero_of_index? (index?_ofNat inside)]
  induction index generalizing count with
  | zero =>
      have before : t.index? (Int64.ofNat 0 + Direction.delta .left) = none := t.index?_neg_one
      rw [zeroDown, stepUntilZero_of_outside before]
      split
      · rfl
      · rfl
  | succ index ih =>
      obtain ⟨count, rfl⟩ : ∃ more, count = more + 1 := ⟨count - 1, by omega⟩
      have next : index < t.usable := Nat.lt_of_succ_lt inside
      rw [zeroDown, ofNat_succ_left, stepUntilZero_of_index? (index?_ofNat next)]
      split
      · rfl
      · exact ih next count (by omega)

theorem stepUntilZero_right {t : Tape} {index rest count : Nat} (ends : index + rest = t.usable)
    (enough : rest ≤ count) :
    t.stepUntilZero .right count (Int64.ofNat index) = match zeroUp t.cells index rest with
      | some found => .ok (Int64.ofNat found)
      | none => .error (Int64.ofNat t.usable) := by
  induction rest generalizing index count with
  | zero =>
      obtain rfl : index = t.usable := ends
      exact stepUntilZero_of_outside t.index?_usable .right count
  | succ rest ih =>
      obtain ⟨count, rfl⟩ : ∃ more, count = more + 1 := ⟨count - 1, by omega⟩
      rw [zeroUp, stepUntilZero_of_index? (index?_ofNat (by omega)), ofNat_right]
      split
      · rfl
      · exact ih (by omega) (by omega)

theorem tapeIndex?_of_index? {t : Tape} {position : Int64} {index : Nat}
    (found : t.index? position = some index) :
    t.tapeIndex? position = if index < t.len then some index else none := by
  have value := (index?_eq_some_iff.1 found).1
  rw [tapeIndex?, value, Int.toNat_natCast]
  congr 1
  simp

theorem nearestZero_of_zero {t : Tape} {index : Nat} (less : index < t.len)
    (zeroAt : t.cells.get index = 0) (direction : Direction) :
    t.nearestZero index direction = Int64.ofNat index := by
  cases direction with
  | left =>
      have here : zeroDown t.cells index = some index := by
        rw [zeroDown_eq_some_iff]
        exact ⟨Nat.le_refl index, zeroAt, by omega⟩
      simp only [nearestZero, here]
  | right =>
      have here : zeroUp t.cells index (t.len - index) = some index := by
        rw [zeroUp_eq_some_iff]
        exact ⟨Nat.le_refl index, by omega, zeroAt, by omega⟩
      simp only [nearestZero, here]

/-! ## Scans -/

theorem scan_of_outside {t : Tape} {position : Int64} (outside : t.index? position = none)
    (direction : Direction) : t.scan position direction = .error position := by
  rw [scan, load?_of_outside outside]

/-- That a scan looks at the cell it starts from before anything else changes nothing. -/
theorem scan_of_index? {t : Tape} {position : Int64} {index : Nat}
    (found : t.index? position = some index) (direction : Direction) :
    t.scan position direction =
      if index < t.len then .ok (t.nearestZero index direction)
      else t.stepUntilZero direction (t.usable + 1) position := by
  rw [scan, load?_of_index? found, tapeIndex?_of_index? found]
  by_cases zeroAt : t.cells.get index = 0
  · simp only [if_pos zeroAt]
    split
    · next less => rw [nearestZero_of_zero less zeroAt, eq_ofNat_of_index? found]
    · rw [stepUntilZero_of_index? found, if_pos zeroAt]
  · simp only [if_neg zeroAt]
    by_cases less : index < t.len
    · simp only [if_pos less]
    · simp only [if_neg less]

theorem scan_left_eq (t : Tape) (position : Int64) :
    t.scan position .left = match t.index? position with
      | none => .error position
      | some index =>
          match zeroDown t.cells index with
          | some found => .ok (Int64.ofNat found)
          | none => if index < t.len then .ok (-1) else .error (-1) := by
  cases found : t.index? position with
  | none => exact scan_of_outside found .left
  | some index =>
      have inside := (index?_eq_some_iff.1 found).2
      rw [scan_of_index? found, eq_ofNat_of_index? found, stepUntilZero_left inside (by omega)]
      by_cases less : index < t.len
      · simp only [if_pos less, nearestZero]
        cases zeroDown t.cells index with
        | some first => rfl
        | none => rfl
      · simp only [if_neg less]

theorem scan_right_eq (t : Tape) (position : Int64) :
    t.scan position .right = match t.index? position with
      | none => .error position
      | some index =>
          match zeroUp t.cells index ((if index < t.len then t.len else t.usable) - index) with
          | some found => .ok (Int64.ofNat found)
          | none =>
              if index < t.len then .ok (Int64.ofNat t.len) else .error (Int64.ofNat t.usable) := by
  cases found : t.index? position with
  | none => exact scan_of_outside found .right
  | some index =>
      have inside := (index?_eq_some_iff.1 found).2
      have ends : index + (t.usable - index) = t.usable := by omega
      rw [scan_of_index? found, eq_ofNat_of_index? found,
        stepUntilZero_right ends (by omega : t.usable - index ≤ t.usable + 1)]
      by_cases less : index < t.len
      · simp only [if_pos less, nearestZero]
        cases zeroUp t.cells index (t.len - index) with
        | some first => rfl
        | none => rfl
      · simp only [if_neg less]

end Tape

end FencedTape
