/-! # Reservations

A tape lies in a reservation of address space, between two guard pages that may not be touched:

    [ guard page ][ tape, rounded up to whole pages ][ guard page ]

Sizes and addresses are 64-bit words.  `acquireIn` asks a backend for the reservation and for the
two guards and reports the calls that it made; if a guard cannot be installed the reservation is
given back.  Some of its sums are checked and refused if they are too large.  How the other
operations on sizes are done is left to the build: they wrap, which is what `acquire` and `release`
stand for, or end the program if they leave the range of words.

An owner parts with a reservation by giving it back, or by going away while still holding it. -/

set_option autoImplicit false

namespace FencedTape

inductive Guard where
  /-- The page before the tape. -/
  | front
  /-- The page after the tape. -/
  | back
  deriving DecidableEq, Repr

def Guard.text : Guard → String
  | .front => "underflow"
  | .back => "overflow"

inductive ReservationError where
  | emptyTape
  /-- The tape and its guards do not fit into the address space. -/
  | tooLarge (size : UInt64)
  | reserve (cause : String)
  | protect (guard : Guard) (cause : String)
  | release (cause : String)
  deriving DecidableEq, Repr

namespace ReservationError

def message : ReservationError → String
  | .emptyTape => "Failed to allocate memory: tape size must be positive"
  | .tooLarge size =>
      "Failed to allocate memory: tape size " ++ toString size.toNat ++ " is too large"
  | .reserve cause => "Failed to allocate memory: " ++ cause
  | .protect guard cause => "Failed to protect " ++ guard.text ++ " page: " ++ cause
  | .release cause => "Failed to free memory: " ++ cause

def isAllocationFailure : ReservationError → Bool
  | .release _ => false
  | _ => true

def report (e : ReservationError) : String := "Assertion failed: " ++ e.message

end ReservationError

inductive BackendCall where
  | reserve (length : UInt64)
  | protect (address length : UInt64)
  | release (address length : UInt64)
  deriving DecidableEq, Repr

/-- What hands out address space.  It answers a request of a length with an address or a refusal,
and may refuse each protection, counted from 1, and the release. -/
structure Backend where
  /-- A power of two. -/
  pageSize : UInt64
  reserve : UInt64 → Except String UInt64
  refusesProtect : Nat → Option String
  refusesRelease : Option String

/-- A backend on which machines can run.  The positions of a machine are signed words, so nothing
that is granted may reach half of the address space; no operating system hands out as much. -/
structure Host extends Backend where
  isPowerOfTwo_pageSize : pageSize.toNat.isPowerOfTwo
  grants_lt : ∀ length base, reserve length = .ok base → length.toNat < 0x8000000000000000

theorem Host.isPowerOfTwo_4096 : (4096 : UInt64).toNat.isPowerOfTwo := ⟨12, rfl⟩

structure Reservation where
  /-- The address of the first byte of the tape. -/
  start : UInt64
  /-- The size asked for. -/
  len : UInt64
  /-- The size rounded up to whole pages. -/
  usable : UInt64
  pageSize : UInt64
  deriving DecidableEq, Repr

/-- How a build carries out the operations on sizes that the program does not check itself.  `m`
says what an operation can do besides giving a word. -/
structure Arithmetic (m : Type → Type) where
  add : UInt64 → UInt64 → m UInt64
  sub : UInt64 → UInt64 → m UInt64
  mul : UInt64 → UInt64 → m UInt64

namespace Reservation

def checkedAdd (a b : UInt64) : Option UInt64 :=
  if a.toNat + b.toNat < 0x10000000000000000 then some (a + b) else none

end Reservation

namespace Arithmetic

def wrapping : Arithmetic Id where
  add a b := a + b
  sub a b := a - b
  mul a b := a * b

def checked : Arithmetic Option where
  add := Reservation.checkedAdd
  sub a b := if b.toNat ≤ a.toNat then some (a - b) else none
  mul a b := if a.toNat * b.toNat < 0x10000000000000000 then some (a * b) else none

end Arithmetic

namespace Reservation

section Builds

variable {m : Type → Type} [Monad m] (arithmetic : Arithmetic m)

/-- A size rounded up to whole pages by clearing its low bits, if the last page still starts in the
address space. -/
def roundUpIn (size pageSize : UInt64) : m (Option UInt64) := do
  let low ← arithmetic.sub pageSize 1
  return (checkedAdd size low).map fun n => n &&& ~~~low

def layoutIn (size pageSize : UInt64) : m (Option (UInt64 × UInt64)) := do
  match ← roundUpIn arithmetic size pageSize with
  | none => return none
  | some usable =>
      let guards ← arithmetic.mul 2 pageSize
      return (checkedAdd usable guards).map fun total => (usable, total)

end Builds

/-- Installs both guards in a reservation of `total` bytes at `base`, the second one at `distance`
from it.  The calls come with the result; a reservation that lacks a guard is given back, whether or
not the backend takes it. -/
def install (backend : Backend) (size usable total base distance : UInt64) :
    Except ReservationError Reservation × List BackendCall :=
  let page := backend.pageSize
  let front := BackendCall.protect base page
  let back := BackendCall.protect (base + distance) page
  match backend.refusesProtect 1 with
  | some cause => (.error (.protect .front cause), [front, .release base total])
  | none =>
      match backend.refusesProtect 2 with
      | some cause => (.error (.protect .back cause), [front, back, .release base total])
      | none =>
          if base + page = 0 then (.error (.reserve "null reservation"), [front, back])
          else (.ok { start := base + page, len := size, usable, pageSize := page }, [front, back])

section Builds

variable {m : Type → Type} [Monad m] (arithmetic : Arithmetic m)

def acquireIn (backend : Backend) (size : UInt64) :
    m (Except ReservationError Reservation × List BackendCall) := do
  if size = 0 then
    return (.error .emptyTape, [])
  match ← layoutIn arithmetic size backend.pageSize with
  | none => return (.error (.tooLarge size), [])
  | some (usable, total) =>
      match backend.reserve total with
      | .error cause => return (.error (.reserve cause), [.reserve total])
      | .ok base =>
          let distance ← arithmetic.sub total backend.pageSize
          return (install backend size usable total base distance).map id (.reserve total :: ·)

def releaseIn (backend : Backend) (r : Reservation) :
    m (Except ReservationError Unit × List BackendCall) := do
  let guards ← arithmetic.mul 2 r.pageSize
  let total ← arithmetic.add r.usable guards
  let call := BackendCall.release (r.start - r.pageSize) total
  match backend.refusesRelease with
  | some cause => return (.error (.release cause), [call])
  | none => return (.ok (), [call])

end Builds

def roundUp (size pageSize : UInt64) : Option UInt64 :=
  (roundUpIn .wrapping size pageSize).run

def layout (size pageSize : UInt64) : Option (UInt64 × UInt64) :=
  (layoutIn .wrapping size pageSize).run

def acquire (backend : Backend) (size : UInt64) :
    Except ReservationError Reservation × List BackendCall :=
  (acquireIn .wrapping backend size).run

def release (backend : Backend) (r : Reservation) :
    Except ReservationError Unit × List BackendCall :=
  (releaseIn .wrapping backend r).run

/-- Gives a reservation back whose owner is done with it.  A refusal then ends the program, with
the text given. -/
def drop (backend : Backend) (r : Reservation) : Option String × List BackendCall :=
  match release backend r with
  | (.ok (), calls) => (none, calls)
  | (.error e, calls) => (some (e.report ++ "\n"), calls)

inductive Parting where
  | release
  | drop
  deriving DecidableEq, Repr

/-- What an owner holds after a parting, and the calls made by it.  What has been given back is not
dropped any more, also if the backend did not take it. -/
def part (backend : Backend) : Option Reservation → Parting → Option Reservation × List BackendCall
  | none, _ => (none, [])
  | some r, .release => (none, (r.release backend).2)
  | some r, .drop => (none, (r.drop backend).2)

def partings (backend : Backend) : Option Reservation → List Parting → List BackendCall
  | _, [] => []
  | held, parting :: rest =>
      let (held, calls) := part backend held parting
      calls ++ partings backend held rest

def isEmpty (r : Reservation) : Bool := r.len = 0

def describe (r : Reservation) (address : String) : String :=
  "GuardedRegion \x7b tape: " ++ address ++ ", len: " ++ toString r.len.toNat ++
    ", usable_len: " ++ toString r.usable.toNat ++ ", page_size: " ++
    toString r.pageSize.toNat ++ " \x7d"

theorem checkedAdd_eq_some_iff {a b c : UInt64} :
    checkedAdd a b = some c ↔ c.toNat = a.toNat + b.toNat := by
  have ha := a.toNat_lt
  have hb := b.toNat_lt
  have hc := c.toNat_lt
  rw [checkedAdd]
  split
  · next fits =>
      rw [Option.some.injEq, ← UInt64.toNat_inj, UInt64.toNat_add, Nat.mod_eq_of_lt fits]
      exact eq_comm
  · next exceeds => simp; omega

/-! ## The wrapping build -/

theorem roundUp_eq (size pageSize : UInt64) :
    roundUp size pageSize =
      (checkedAdd size (pageSize - 1)).map fun n => n &&& ~~~(pageSize - 1) := rfl

theorem layout_eq (size pageSize : UInt64) :
    layout size pageSize = match roundUp size pageSize with
      | none => none
      | some usable => (checkedAdd usable (2 * pageSize)).map fun total => (usable, total) := by
  rw [layout, layoutIn, Id.run_bind, ← roundUp]
  cases roundUp size pageSize with
  | none => rfl
  | some usable => rfl

theorem acquire_eq (backend : Backend) (size : UInt64) :
    acquire backend size =
      if size = 0 then (.error .emptyTape, [])
      else match layout size backend.pageSize with
        | none => (.error (.tooLarge size), [])
        | some (usable, total) =>
            match backend.reserve total with
            | .error cause => (.error (.reserve cause), [.reserve total])
            | .ok base =>
                (install backend size usable total base (total - backend.pageSize)).map id
                  (.reserve total :: ·) := by
  rw [acquire, acquireIn]
  split
  · rfl
  · rw [Id.run_bind, ← layout]
    cases layout size backend.pageSize with
    | none => rfl
    | some sizes =>
        obtain ⟨usable, total⟩ := sizes
        dsimp only
        cases backend.reserve total with
        | error cause => rfl
        | ok base => rfl

theorem release_eq (backend : Backend) (r : Reservation) :
    release backend r =
      let call := BackendCall.release (r.start - r.pageSize) (r.usable + 2 * r.pageSize)
      match backend.refusesRelease with
      | some cause => (.error (.release cause), [call])
      | none => (.ok (), [call]) := by
  rw [release, releaseIn, Id.run_bind, Id.run_bind]
  cases backend.refusesRelease with
  | none => rfl
  | some cause => rfl

theorem layout_eq_some_iff {size pageSize usable total : UInt64} :
    layout size pageSize = some (usable, total) ↔
      ∃ n, checkedAdd size (pageSize - 1) = some n ∧ n &&& ~~~(pageSize - 1) = usable ∧
        checkedAdd usable (2 * pageSize) = some total := by
  rw [layout_eq, roundUp_eq]
  cases checkedAdd size (pageSize - 1) with
  | none => simp
  | some n =>
      simp only [Option.map_some, Option.map_eq_some_iff, Prod.mk.injEq, Option.some.injEq]
      constructor
      · rintro ⟨_, whole, rfl, rfl⟩
        exact ⟨n, rfl, rfl, whole⟩
      · rintro ⟨_, rfl, rfl, whole⟩
        exact ⟨total, whole, rfl, rfl⟩

theorem layout_of_acquire {backend : Backend} {size : UInt64} {r : Reservation}
    {calls : List BackendCall} (h : acquire backend size = (.ok r, calls)) :
    ∃ total base, layout size backend.pageSize = some (r.usable, total) ∧
      backend.reserve total = .ok base ∧ r.len = size ∧ r.pageSize = backend.pageSize := by
  rw [acquire_eq] at h
  split at h
  · cases h
  split at h
  · cases h
  next usable total hl =>
    split at h
    · cases h
    next base hb =>
      refine ⟨total, base, ?_⟩
      simp only [install] at h
      split at h
      · cases h
      split at h
      · cases h
      split at h
      · cases h
      cases h
      exact ⟨hl, hb, rfl, rfl⟩

/-! ## Sizes on a host -/

theorem toNat_sub_one {page : UInt64} (positive : 0 < page.toNat) :
    (page - 1).toNat = page.toNat - 1 :=
  UInt64.toNat_sub_of_le _ _ (UInt64.le_iff_toNat_le.mpr positive)

/-- For a page size, clearing the low bits is rounding down. -/
theorem toNat_and_not {page : UInt64} (power : page.toNat.isPowerOfTwo) (n : UInt64) :
    (n &&& ~~~(page - 1)).toNat = n.toNat / page.toNat * page.toNat := by
  have low := toNat_sub_one (Nat.pos_of_isPowerOfTwo power)
  obtain ⟨k, power⟩ := power
  rw [power] at low
  have mask : (~~~(page - 1)).toNat = 2 ^ 64 - (2 ^ k - 1 + 1) := by
    rw [Nat.add_comm, ← Nat.sub_sub, ← low]
    exact UInt64.toNat_not _
  have lowWord : 2 ^ k - 1 < 2 ^ 64 := low ▸ (page - 1).toNat_lt
  apply Nat.eq_of_testBit_eq
  intro i
  rw [power, UInt64.toNat_and, mask, Nat.testBit_mul_two_pow, Nat.testBit_div_two_pow,
    Nat.testBit_and, Nat.testBit_two_pow_sub_succ lowWord, Nat.testBit_two_pow_sub_one]
  by_cases above : k ≤ i
  · rw [Nat.sub_add_cancel above]
    by_cases inside : i < 64
    · simp [inside, above, Nat.not_lt.mpr above]
    · have clear : n.toNat.testBit i = false :=
        Nat.testBit_lt_two_pow (Nat.lt_of_lt_of_le n.toNat_lt
          (Nat.pow_le_pow_right (by decide) (Nat.le_of_not_lt inside)))
      simp [clear]
  · simp [above, Nat.lt_of_not_le above]

theorem bounds_of_acquire {host : Host} {size : UInt64} {r : Reservation}
    {calls : List BackendCall} (h : acquire host.toBackend size = (.ok r, calls)) :
    r.len.toNat ≤ r.usable.toNat ∧ r.usable.toNat < 0x8000000000000000 := by
  obtain ⟨total, base, laid, granted, rfl, -⟩ := layout_of_acquire h
  obtain ⟨n, sum, tape, whole⟩ := layout_eq_some_iff.1 laid
  rw [checkedAdd_eq_some_iff] at sum whole
  have small := host.grants_lt total base granted
  have positive := Nat.pos_of_isPowerOfTwo host.isPowerOfTwo_pageSize
  have low := toNat_sub_one positive
  have rounded := Nat.div_add_mod' n.toNat host.pageSize.toNat
  have rest := Nat.mod_lt n.toNat positive
  rw [← toNat_and_not host.isPowerOfTwo_pageSize, tape] at rounded
  omega

end Reservation

end FencedTape
