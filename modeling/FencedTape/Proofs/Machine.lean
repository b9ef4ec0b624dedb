import FencedTape.Machine

/-! # What an action can come to

An action that faults has accessed a position where there is no cell (`index?_of_fault`), and on
streams without mishaps no action fails (`FaultFree.perform`). -/

set_option autoImplicit false

namespace FencedTape

namespace Tape

theorem index?_of_load? {t : Tape} {position : Int64} (h : t.load? position = none) :
    t.index? position = none := by
  simpa [load?] using h

theorem index?_of_store? {t : Tape} {position : Int64} {value : UInt8}
    (h : t.store? position value = none) : t.index? position = none := by
  simpa [store?] using h

/-- A scan that faults has left the usable cells. -/
theorem index?_of_scan {t : Tape} {position fault : Int64} {direction : Direction}
    (h : t.scan position direction = .error fault) : t.index? fault = none := by
  cases direction with
  | left =>
      rw [scan_left_eq] at h
      split at h
      · next none => cases h; exact none
      · split at h
        · cases h
        · split at h
          · cases h
          · cases h; exact t.index?_neg_one
  | right =>
      rw [scan_right_eq] at h
      split at h
      · next none => cases h; exact none
      · split at h
        · cases h
        · split at h
          · cases h
          · cases h; exact t.index?_usable

end Tape

theorem Source.receive_of_nil {s : Source} (h : s.mishaps = []) :
    s.receive = match s.bytes with
      | [] => (.ended, s)
      | value :: bytes => (.byte value, { s with bytes }) := by
  obtain ⟨bytes, mishaps⟩ := s
  cases h
  cases bytes <;> rfl

namespace Machine

theorem usable_of_perform {m m' : Machine} {action : Action} {o : Outcome}
    (h : m.perform action = (m', o)) : m'.tape.usable = m.tape.usable := by
  have kept := m.fixed_perform action
  rw [h] at kept
  exact congrArg (fun sizes => sizes.2.1) kept

/-! ## Faults -/

theorem index?_of_store_fault {m m' : Machine} {position fault : Int64} {value : UInt8}
    (h : m.store position value = (m', .fault fault)) : m.tape.index? fault = none := by
  rw [store] at h
  split at h
  · cases h
  · next none =>
      cases h
      exact Tape.index?_of_store? none

theorem index?_of_update_fault {m m' : Machine} {position fault : Int64} {f : UInt8 → UInt8}
    (h : m.update position f = (m', .fault fault)) : m.tape.index? fault = none := by
  rw [update] at h
  split at h
  · exact index?_of_store_fault h
  · next none =>
      cases h
      exact Tape.index?_of_load? none

theorem index?_of_read_fault {m m' : Machine} {position fault : Int64}
    (h : m.read position = (m', .fault fault)) : m.tape.index? fault = none := by
  rw [read] at h
  split at h
  · have none := index?_of_store_fault h
    exact none
  · split at h
    · have none := index?_of_store_fault h
      exact none
    · cases h
  · cases h

theorem index?_of_write_fault {m m' : Machine} {position fault : Int64}
    (h : m.write position = (m', .fault fault)) : m.tape.index? fault = none := by
  rw [write] at h
  split at h
  · next none =>
      cases h
      exact Tape.index?_of_load? none
  · split at h <;> cases h

theorem index?_of_fault {m m' : Machine} {action : Action} {fault : Int64}
    (h : m.perform action = (m', .fault fault)) : m.tape.index? fault = none := by
  cases action with
  | adjust offset delta => exact index?_of_update_fault h
  | select delta => cases h
  | read offset => exact index?_of_read_fault h
  | write offset => exact index?_of_write_fault h
  | set offset value => exact index?_of_store_fault h
  | multiplyAdd offset factor =>
      rw [perform] at h
      split at h
      · exact index?_of_update_fault h
      · next none =>
          cases h
          exact Tape.index?_of_load? none
  | scan direction =>
      rw [perform] at h
      split at h
      · cases h
      · next scanned =>
          cases h
          exact Tape.index?_of_scan scanned

/-! ## Streams without mishaps -/

def FaultFree (m : Machine) : Prop :=
  m.source.mishaps = [] ∧ m.sink.writeMishaps = [] ∧ m.sink.flushMishaps = []

instance faultFreeDecidable (m : Machine) : Decidable m.FaultFree :=
  inferInstanceAs (Decidable (_ ∧ _ ∧ _))

theorem FaultFree.store {m m' : Machine} {position : Int64} {value : UInt8} {o : Outcome}
    (quiet : m.FaultFree) (h : m.store position value = (m', o)) :
    m'.FaultFree ∧ ∀ cause, o ≠ .failed cause := by
  rw [Machine.store] at h
  split at h
  · cases h
    exact ⟨quiet, by simp⟩
  · cases h
    exact ⟨quiet, by simp⟩

theorem FaultFree.update {m m' : Machine} {position : Int64} {f : UInt8 → UInt8} {o : Outcome}
    (quiet : m.FaultFree) (h : m.update position f = (m', o)) :
    m'.FaultFree ∧ ∀ cause, o ≠ .failed cause := by
  rw [Machine.update] at h
  split at h
  · exact quiet.store h
  · cases h
    exact ⟨quiet, by simp⟩

theorem FaultFree.read {m m' : Machine} {position : Int64} {o : Outcome} (quiet : m.FaultFree)
    (h : m.read position = (m', o)) : m'.FaultFree ∧ ∀ cause, o ≠ .failed cause := by
  rw [Machine.read, Source.receive_of_nil quiet.1] at h
  cases input : m.source.bytes with
  | nil =>
      simp only [input] at h
      split at h
      · exact FaultFree.store (m := { m with source := m.source }) quiet h
      · cases h
        exact ⟨quiet, by simp⟩
  | cons value bytes =>
      simp only [input] at h
      exact FaultFree.store (m := { m with source := { m.source with bytes } }) quiet h

theorem FaultFree.write {m m' : Machine} {position : Int64} {o : Outcome} (quiet : m.FaultFree)
    (h : m.write position = (m', o)) : m'.FaultFree ∧ ∀ cause, o ≠ .failed cause := by
  rw [Machine.write] at h
  split at h
  · cases h
    exact ⟨quiet, by simp⟩
  · rw [Sink.emit_of_nil quiet.2.1 quiet.2.2] at h
    cases h
    exact ⟨quiet, by simp⟩

theorem FaultFree.perform {m m' : Machine} {action : Action} {o : Outcome} (quiet : m.FaultFree)
    (h : m.perform action = (m', o)) : m'.FaultFree ∧ ∀ cause, o ≠ .failed cause := by
  cases action with
  | adjust offset delta => exact quiet.update h
  | select delta =>
      cases h
      exact ⟨quiet, by simp⟩
  | read offset => exact quiet.read h
  | write offset => exact quiet.write h
  | set offset value => exact quiet.store h
  | multiplyAdd offset factor =>
      rw [Machine.perform] at h
      split at h
      · exact quiet.update h
      · cases h
        exact ⟨quiet, by simp⟩
  | scan direction =>
      rw [Machine.perform] at h
      split at h
      · cases h
        exact ⟨quiet, by simp⟩
      · cases h
        exact ⟨quiet, by simp⟩

end Machine

end FencedTape
