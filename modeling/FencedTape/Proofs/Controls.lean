import FencedTape.Debugger.Request
import FencedTape.Proofs.Machine
import Mathlib.Tactic.ByContra
import Mathlib.Tactic.SplitIfs

/-! # The controls of the debugger

Five requests name an address that is checked, against the size of the program or the length of the
tape (`Request.checked?`).  One that is out of bounds is refused, with that address, and changes
nothing; any other is granted, and `Debugger.Grants` says what it changes and replies.  Removing a
breakpoint is always granted.

The debugger gets at the cells by index and the instructions by position.  Both are the same bytes:
a peek gives what an instruction would load there, and a poke leaves the machine that a store by an
instruction leaves. -/

set_option autoImplicit false

namespace FencedTape

/-- The address that a request names and the bound that it has to be below, if it is checked. -/
def Request.checked? (d : Debugger) : Request → Option (Nat × Nat)
  | .setBreakpoint address | .jump address => some (address, d.program.size)
  | .peek index | .poke index _ | .select index => some (index, d.machine.tape.len)
  | .run | .step | .deleteBreakpoint _ | .setPointer _ => none

namespace Tape

theorem index?_of_lt_len {t : Tape} {position : Int64} {index : Nat} (inside : index < t.len)
    (there : position.toInt = index) : t.index? position = some index := by
  have covers := t.len_le_usable
  exact index?_eq_some_iff.mpr ⟨there, by omega⟩

theorem load?_of_lt_len {t : Tape} {position : Int64} {index : Nat} (inside : index < t.len)
    (there : position.toInt = index) : t.load? position = some (t.cells.get index) :=
  load?_of_index? (index?_of_lt_len inside there)

end Tape

namespace Debugger

/-- What a request leaves that is not refused, and what the reply to it is. -/
inductive Grants (d : Debugger) : Request → Debugger → Reply → Prop
  | setBreakpoint {address : Nat} {breakpoints : Std.ExtTreeSet Nat} {new : Bool}
      (members : ∀ other, other ∈ breakpoints ↔ other = address ∨ other ∈ d.breakpoints)
      (changed : new = true ↔ breakpoints ≠ d.breakpoints) :
      Grants d (.setBreakpoint address) { d with breakpoints } (.changed new)
  | deleteBreakpoint {address : Nat} {breakpoints : Std.ExtTreeSet Nat} {old : Bool}
      (members : ∀ other, other ∈ breakpoints ↔ other ≠ address ∧ other ∈ d.breakpoints)
      (changed : old = true ↔ breakpoints ≠ d.breakpoints) :
      Grants d (.deleteBreakpoint address) { d with breakpoints } (.changed old)
  | peek {index : Nat} : Grants d (.peek index) d (.value (d.machine.tape.cells.get index))
  | poke {index : Nat} {value : UInt8} {tape : Tape} (len : tape.len = d.machine.tape.len)
      (usable : tape.usable = d.machine.tape.usable)
      (cells : ∀ other, tape.cells.get other =
        if index = other then value else d.machine.tape.cells.get other) :
      Grants d (.poke index value) { d with machine := { d.machine with tape } }
        (.value (d.machine.tape.cells.get index))
  | jump {address : Nat} :
      Grants d (.jump address) { d with ip := address, pausedAt := none } .done
  | select {index : Nat} {dp : Int64} (there : dp.toInt = index) :
      Grants d (.select index) { d with machine := { d.machine with dp } } .done

/-! ## Refusals -/

theorem handle_of_out_of_bounds {d : Debugger} {request : Request} {address bound : Nat}
    (checked : request.checked? d = some (address, bound)) (out : bound ≤ address) (limit : Nat) :
    d.handle limit request = (d, .refused (.outOfBounds address)) := by
  have outside := Nat.not_lt.mpr out
  cases request with
  | run => cases checked
  | step => cases checked
  | setBreakpoint address =>
      cases checked
      simp only [handle, setBreakpoint?, if_neg outside]
  | deleteBreakpoint address => cases checked
  | peek index =>
      cases checked
      simp only [handle, peek?, if_neg outside]
  | poke index value =>
      cases checked
      simp only [handle, poke?, peek?, if_neg outside, Option.map_none]
  | jump address =>
      cases checked
      simp only [handle, jump?, if_neg outside]
  | select index =>
      cases checked
      simp only [handle, select?, if_neg outside]
  | setPointer index => cases checked

theorem Grants.not_refused {d e : Debugger} {request : Request} {reply : Reply}
    (h : d.Grants request e reply) (cause : RequestError) : reply ≠ .refused cause := by
  cases h <;> simp

/-! ## Breakpoints -/

theorem mem_insert_iff {s : Std.ExtTreeSet Nat} {address other : Nat} :
    other ∈ s.insert address ↔ other = address ∨ other ∈ s := by
  rw [Std.ExtTreeSet.mem_insert, Std.compare_eq_iff_eq, eq_comm]

theorem mem_erase_iff {s : Std.ExtTreeSet Nat} {address other : Nat} :
    other ∈ s.erase address ↔ other ≠ address ∧ other ∈ s := by
  rw [Std.ExtTreeSet.mem_erase, Ne, Std.compare_eq_iff_eq, eq_comm]

theorem insert_ne_iff {s : Std.ExtTreeSet Nat} {address : Nat} :
    s.insert address ≠ s ↔ address ∉ s := by
  constructor
  · intro changed mem
    apply changed
    apply Std.ExtTreeSet.ext_mem
    intro other
    rw [mem_insert_iff]
    constructor
    · intro either
      rcases either with rfl | old
      · exact mem
      · exact old
    · exact Or.inr
  · intro new same
    apply new
    rw [← same]
    exact mem_insert_iff.mpr (Or.inl rfl)

theorem erase_ne_iff {s : Std.ExtTreeSet Nat} {address : Nat} :
    s.erase address ≠ s ↔ address ∈ s := by
  constructor
  · intro changed
    by_contra missing
    apply changed
    apply Std.ExtTreeSet.ext_mem
    intro other
    rw [mem_erase_iff]
    constructor
    · exact And.right
    · intro old
      refine ⟨?_, old⟩
      rintro rfl
      exact missing old
  · intro mem same
    rw [← same] at mem
    exact (mem_erase_iff.mp mem).1 rfl

theorem grants_setBreakpoint {d : Debugger} {address : Nat} :
    d.Grants (.setBreakpoint address) { d with breakpoints := d.breakpoints.insert address }
      (.changed (!d.breakpoints.contains address)) := by
  apply Grants.setBreakpoint
  · intro other
    exact mem_insert_iff
  · rw [insert_ne_iff, Bool.not_eq_true', ← Bool.not_eq_true, Std.ExtTreeSet.contains_iff_mem]

theorem grants_deleteBreakpoint (d : Debugger) (address limit : Nat) :
    d.Grants (.deleteBreakpoint address) (d.handle limit (.deleteBreakpoint address)).1
      (d.handle limit (.deleteBreakpoint address)).2 := by
  apply Grants.deleteBreakpoint
  · intro other
    exact mem_erase_iff
  · rw [erase_ne_iff, Std.ExtTreeSet.contains_iff_mem]

/-! ## What is granted -/

theorem handle_peek_of_lt {d : Debugger} {index : Nat} (inside : index < d.machine.tape.len)
    (limit : Nat) :
    d.handle limit (.peek index) = (d, .value (d.machine.tape.cells.get index)) := by
  simp only [handle, peek?, if_pos inside]

/-- The debugger after a byte has been stored in a cell. -/
def poked (d : Debugger) (index : Nat) (value : UInt8) : Debugger :=
  { d with machine := { d.machine with tape := d.machine.tape.setCell index value } }

theorem handle_poke_of_lt {d : Debugger} {index : Nat} (inside : index < d.machine.tape.len)
    (value : UInt8) (limit : Nat) :
    d.handle limit (.poke index value) =
      (d.poked index value, .value (d.machine.tape.cells.get index)) := by
  simp only [handle, poke?, peek?, if_pos inside, Option.map_some, poked]

theorem grants_of_in_bounds {d : Debugger} {request : Request} {address bound : Nat}
    (checked : request.checked? d = some (address, bound)) (inside : address < bound)
    (limit : Nat) :
    d.Grants request (d.handle limit request).1 (d.handle limit request).2 := by
  cases request with
  | run => cases checked
  | step => cases checked
  | setBreakpoint address =>
      cases checked
      simp only [handle, setBreakpoint?, if_pos inside]
      exact grants_setBreakpoint
  | deleteBreakpoint address => cases checked
  | peek index =>
      cases checked
      rw [handle_peek_of_lt inside]
      exact .peek
  | poke index value =>
      cases checked
      rw [handle_poke_of_lt inside]
      apply Grants.poke
      · rfl
      · rfl
      · intro other
        exact Memory.get_set _ _ _ _
  | jump address =>
      cases checked
      simp only [handle, jump?, if_pos inside]
      exact .jump
  | select index =>
      cases checked
      have covers := d.machine.tape.len_le_usable
      have bound := d.machine.tape.usable_lt
      simp only [handle, select?, if_pos inside]
      exact .select (Int64.toInt_ofNat_of_lt (by omega))
  | setPointer index => cases checked

theorem refused_iff {d : Debugger} {request : Request} {address bound : Nat}
    (checked : request.checked? d = some (address, bound)) (limit : Nat) :
    (∃ cause, (d.handle limit request).2 = .refused cause) ↔ bound ≤ address := by
  constructor
  · intro ⟨cause, refused⟩
    by_contra inside
    have granted := grants_of_in_bounds checked (Nat.lt_of_not_le inside) limit
    exact granted.not_refused cause refused
  · intro out
    rw [handle_of_out_of_bounds checked out]
    exact ⟨_, rfl⟩

/-! ## The same bytes by index and by position -/

theorem store_of_poke {d : Debugger} {position : Int64} {index : Nat}
    (inside : index < d.machine.tape.len) (there : position.toInt = index) (value : UInt8) :
    d.machine.store position value = ((d.poked index value).machine, .done) := by
  rw [Machine.store, Tape.store?, Tape.index?_of_lt_len inside there]
  rfl

theorem handle_peek_of_poked {d : Debugger} {index other : Nat} {value : UInt8} {limit : Nat}
    (onTape : other < d.machine.tape.len) :
    ((d.poked index value).handle limit (.peek other)).2 =
      if index = other then .value value else (d.handle limit (.peek other)).2 := by
  have kept : other < (d.poked index value).machine.tape.len := onTape
  rw [handle_peek_of_lt kept, handle_peek_of_lt onTape]
  change Reply.value ((d.machine.tape.cells.set index value).get other) = _
  rw [Memory.get_set]
  split_ifs
  · rfl
  · rfl

/-- A control is refused exactly if its address is out of bounds, and then it changes nothing.
What is granted changes what it is for and nothing else.  The cells that are peeked and poked are
those that instructions load and store. -/
theorem controls_are_checked (limit : Nat) (d : Debugger) :
    (∀ request address bound, request.checked? d = some (address, bound) →
      ((∃ cause, (d.handle limit request).2 = .refused cause) ↔ bound ≤ address) ∧
      (bound ≤ address → d.handle limit request = (d, .refused (.outOfBounds address))) ∧
      (address < bound →
        d.Grants request (d.handle limit request).1 (d.handle limit request).2)) ∧
    (∀ address, d.Grants (.deleteBreakpoint address)
      (d.handle limit (.deleteBreakpoint address)).1
      (d.handle limit (.deleteBreakpoint address)).2) ∧
    (∀ (index : Nat) (position : Int64), index < d.machine.tape.len → position.toInt = index →
      ∃ byte, d.machine.tape.load? position = some byte ∧
        d.handle limit (.peek index) = (d, .value byte)) ∧
    ∀ index value, index < d.machine.tape.len →
      ∃ e old, d.handle limit (.poke index value) = (e, .value old) ∧
        (∀ offset, (d.machine.dp + offset).toInt = index →
          d.machine.perform (.set offset value) = (e.machine, .done)) ∧
        ∀ other < d.machine.tape.len, (e.handle limit (.peek other)).2 =
          if index = other then .value value else (d.handle limit (.peek other)).2 := by
  refine ⟨?_, ?_, ?_, ?_⟩
  · intro request address bound checked
    exact ⟨refused_iff checked limit, fun out => handle_of_out_of_bounds checked out limit,
      fun inside => grants_of_in_bounds checked inside limit⟩
  · intro address
    exact d.grants_deleteBreakpoint address limit
  · intro index position inside there
    exact ⟨_, Tape.load?_of_lt_len inside there, handle_peek_of_lt inside limit⟩
  · intro index value inside
    refine ⟨d.poked index value, _, handle_poke_of_lt inside value limit, ?_, ?_⟩
    · intro offset there
      exact store_of_poke inside there value
    · intro other onTape
      exact handle_peek_of_poked onTape

end Debugger

end FencedTape
