import FencedTape.Reservation
import Mathlib.Algebra.Group.Nat.Defs

/-! # What a failed acquisition gives back

An acquisition can fail in four ways, and `Failure` lists them with the backend calls made until
then.  A reservation that lacks a guard is given back in its last call.  One that has both guards
but would put its tape at address zero is not: it is refused after the guards are installed, and no
call follows.  `givesBack_iff` says that this is the only leak, and `topmost_leaks` shows one. -/

set_option autoImplicit false

namespace FencedTape

def BackendCall.isRelease : BackendCall → Bool
  | .release _ _ => true
  | .reserve _ | .protect _ _ => false

namespace Reservation

/-- Each reservation that was granted in the course of these calls was given back by one of them
and no other, with the address and the length that it was granted with. -/
def GivesBack (backend : Backend) (calls : List BackendCall) : Prop :=
  ∀ total base, .reserve total ∈ calls → backend.reserve total = .ok base →
    calls.filter BackendCall.isRelease = [.release base total]

/-- A reservation at `base` gets both its guards, but its tape would start at address zero. -/
def Null (backend : Backend) (base : UInt64) : Prop :=
  backend.refusesProtect 1 = none ∧ backend.refusesProtect 2 = none ∧
    base + backend.pageSize = 0

def protects (backend : Backend) (addresses : List UInt64) : List BackendCall :=
  addresses.map fun address => .protect address backend.pageSize

inductive Failure (backend : Backend) : List BackendCall → Prop
  | unasked : Failure backend []
  | refused (total : UInt64) (cause : String) (refused : backend.reserve total = .error cause) :
      Failure backend [.reserve total]
  | unguarded (total base : UInt64) (addresses : List UInt64)
      (granted : backend.reserve total = .ok base) (solid : ¬ Null backend base) :
      Failure backend (.reserve total :: (protects backend addresses ++ [.release base total]))
  | null (total base : UInt64) (addresses : List UInt64)
      (granted : backend.reserve total = .ok base) (null : Null backend base) :
      Failure backend (.reserve total :: protects backend addresses)

theorem failure_of_install {backend : Backend} {size usable total base distance : UInt64}
    {e : ReservationError} {calls : List BackendCall} (granted : backend.reserve total = .ok base)
    (h : install backend size usable total base distance = (.error e, calls)) :
    Failure backend (.reserve total :: calls) := by
  simp only [install] at h
  split at h
  · next cause front =>
      cases h
      refine .unguarded total base [base] granted ?_
      rintro ⟨installed, -⟩
      exact absurd (front.symm.trans installed) (by simp)
  · next front =>
      split at h
      · next cause back =>
          cases h
          refine .unguarded total base [base, base + distance] granted ?_
          rintro ⟨-, installed, -⟩
          exact absurd (back.symm.trans installed) (by simp)
      · next back =>
          split at h
          · next zero =>
              cases h
              exact .null total base [base, base + distance] granted
                ⟨front, back, zero⟩
          · cases h

theorem failure_of_acquire {backend : Backend} {size : UInt64} {e : ReservationError}
    {calls : List BackendCall} (h : acquire backend size = (.error e, calls)) :
    Failure backend calls := by
  rw [acquire_eq] at h
  split at h
  · cases h
    exact .unasked
  · split at h
    · cases h
      exact .unasked
    · next usable total layout =>
        split at h
        · next cause refused =>
            cases h
            exact .refused total cause refused
        · next base granted =>
            rcases installed : install backend size usable total base
              (total - backend.pageSize) with ⟨result, made⟩
            simp only [installed] at h
            cases h
            exact failure_of_install granted installed

theorem filter_protects (backend : Backend) (addresses : List UInt64) :
    (protects backend addresses).filter BackendCall.isRelease = [] := by
  induction addresses with
  | nil => rfl
  | cons address addresses ih => exact ih

theorem eq_of_reserve_mem {backend : Backend} {addresses : List UInt64}
    {total other : UInt64} {more : List BackendCall} (none : .reserve other ∉ more)
    (mem : .reserve other ∈ BackendCall.reserve total :: (protects backend addresses ++ more)) :
    other = total := by
  simp only [protects, List.mem_cons, List.mem_append, List.mem_map, reduceCtorEq, and_false,
    exists_false, false_or, BackendCall.reserve.injEq] at mem
  exact mem.resolve_right none

/-- An acquisition that fails has given back what it was granted, unless it was granted a
reservation whose tape would start at address zero and both guards of it. -/
theorem givesBack_iff (backend : Backend) (size : UInt64) (e : ReservationError)
    (calls : List BackendCall) (h : acquire backend size = (.error e, calls)) :
    GivesBack backend calls ↔
      ∀ total base, .reserve total ∈ calls → backend.reserve total = .ok base →
        ¬ Null backend base := by
  cases failure_of_acquire h with
  | unasked => simp [GivesBack]
  | refused total cause refused =>
      have ungranted : ∀ other base, .reserve other ∈ [BackendCall.reserve total] →
          backend.reserve other ≠ .ok base := by
        intro other base mem granted
        cases List.mem_singleton.mp mem
        exact absurd (refused.symm.trans granted) (by simp)
      constructor
      · intro _ other base mem granted
        exact absurd granted (ungranted other base mem)
      · intro _ other base mem granted
        exact absurd granted (ungranted other base mem)
  | unguarded total base addresses granted solid =>
      have released : (BackendCall.reserve total ::
          (protects backend addresses ++ [.release base total])).filter BackendCall.isRelease =
          [.release base total] := by
        rw [List.filter_cons_of_neg (by simp [BackendCall.isRelease]), List.filter_append,
          filter_protects]
        rfl
      have only : ∀ other base', .reserve other ∈ BackendCall.reserve total ::
          (protects backend addresses ++ [.release base total]) →
          backend.reserve other = .ok base' → other = total ∧ base' = base := by
        intro other base' mem granted'
        cases eq_of_reserve_mem (by simp) mem
        exact ⟨rfl, Except.ok.inj (granted'.symm.trans granted)⟩
      constructor
      · intro _ other base' mem granted'
        obtain ⟨-, rfl⟩ := only other base' mem granted'
        exact solid
      · intro _ other base' mem granted'
        obtain ⟨rfl, rfl⟩ := only other base' mem granted'
        exact released
  | null total base addresses granted null =>
      have released : (BackendCall.reserve total :: protects backend addresses).filter
          BackendCall.isRelease = [] := by
        rw [List.filter_cons_of_neg (by simp [BackendCall.isRelease]), filter_protects]
      constructor
      · intro givesBack
        have once := givesBack total base List.mem_cons_self granted
        exact absurd (released.symm.trans once) (by simp)
      · intro solid
        exact absurd null (solid total base List.mem_cons_self granted)

def stubborn : Backend where
  pageSize := 4096
  reserve _ := .ok 0x10000
  refusesProtect call := if call = 2 then some "protect refused" else none
  refusesRelease := some "release refused"

theorem givesBack_stubborn :
    ∃ e calls, acquire stubborn 30000 = (.error e, calls) ∧ GivesBack stubborn calls ∧
      calls = [.reserve 40960, .protect 0x10000 4096, .protect 0x19000 4096,
        .release 0x10000 40960] := by
  have failed : acquire stubborn 30000 = (.error (.protect .back "protect refused"),
      [.reserve 40960, .protect 0x10000 4096, .protect 0x19000 4096,
        .release 0x10000 40960]) := rfl
  refine ⟨_, _, failed, (givesBack_iff stubborn 30000 _ _ failed).mpr ?_, rfl⟩
  intro total base _ _ null
  exact absurd null.2.1 (by decide)

def topmost : Backend where
  pageSize := 16
  reserve _ := .ok 0xFFFFFFFFFFFFFFF0
  refusesProtect _ := none
  refusesRelease := none

theorem topmost_leaks :
    ¬ ∀ (backend : Backend) (size : UInt64) (e : ReservationError) (calls : List BackendCall),
      (∃ k ≤ 62, backend.pageSize.toNat = 2 ^ k) → acquire backend size = (.error e, calls) →
        GivesBack backend calls := by
  intro givesBack
  have failed : acquire topmost 33 = (.error (.reserve "null reservation"),
      [.reserve 80, .protect 0xFFFFFFFFFFFFFFF0 16, .protect 48 16]) := rfl
  have once := givesBack topmost 33 _ _ ⟨4, by decide, by decide⟩ failed 80 0xFFFFFFFFFFFFFFF0
    (by decide) rfl
  exact absurd once (by decide)

end Reservation

end FencedTape
