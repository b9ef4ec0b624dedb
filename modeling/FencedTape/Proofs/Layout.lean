import FencedTape.Proofs.Reservation
import Mathlib.Algebra.Order.Floor.Div
import Mathlib.Order.Bounds.Basic

/-! # Where a reservation lies and how it ends

Sizes are words, and rounding them up and adding the guards is checked for overflow.  `extent` is
the same sum on numbers, which do not overflow: a tape is too large exactly if its extent is not a
word (`layout_iff_extent`, `layout_eq_none_iff`).  An acquisition that is granted so much at `base`
and gets both guards puts them on the first and the last page (`install_of_granted`):

    base            base + page                          base + extent - page
    [ guard page ]  [ tape, rounded up to whole pages ]  [ guard page ]

An owner parts with a reservation by asking for it to be given back, or by going away while still
holding it.  Either uses it up, even if the backend refuses, so that the first parting makes the
only call (`partings_of_held`). -/

set_option autoImplicit false

namespace FencedTape

def BackendCall.isReserve : BackendCall → Bool
  | .reserve _ => true
  | .protect _ _ | .release _ _ => false

namespace Reservation

def rounded (size page : Nat) : Nat := size ⌈/⌉ page * page

def extent (size page : Nat) : Nat := rounded size page + 2 * page

/-- The page size is a power of two, and both guards together are a word. -/
def Paged (backend : Backend) : Prop := ∃ k ≤ 62, backend.pageSize.toNat = 2 ^ k

/-! ## Rounding -/

theorem Paged.bounds {backend : Backend} (paged : Paged backend) :
    0 < backend.pageSize.toNat ∧ backend.pageSize.toNat ≤ 2 ^ 62 := by
  obtain ⟨k, le, power⟩ := paged
  rw [power]
  exact ⟨Nat.two_pow_pos k, Nat.pow_le_pow_right (by decide) le⟩

theorem Paged.isPowerOfTwo {backend : Backend} (paged : Paged backend) :
    backend.pageSize.toNat.isPowerOfTwo := by
  obtain ⟨k, -, power⟩ := paged
  exact ⟨k, power⟩

theorem rounded_eq {size page : Nat} (positive : 0 < page) :
    rounded size page = (size + (page - 1)) / page * page := by
  rw [rounded, Nat.ceilDiv_eq_add_pred_div, Nat.add_sub_assoc positive]

theorem isLeast_rounded (size : Nat) {page : Nat} (positive : 0 < page) :
    IsLeast { n | page ∣ n ∧ size ≤ n } (rounded size page) := by
  refine ⟨⟨Nat.dvd_mul_left _ _, ?_⟩, ?_⟩
  · have covers := le_smul_ceilDiv (a := page) (b := size) positive
    rwa [smul_eq_mul, Nat.mul_comm] at covers
  · rintro n ⟨⟨pages, rfl⟩, le⟩
    rw [rounded, Nat.mul_comm]
    exact Nat.mul_le_mul_left page ((ceilDiv_le_iff_le_mul positive).mpr (by simpa using le))

theorem toNat_and_not_eq_rounded {n page : UInt64} {size : Nat} (power : page.toNat.isPowerOfTwo)
    (sum : n.toNat = size + (page.toNat - 1)) :
    (n &&& ~~~(page - 1)).toNat = rounded size page.toNat := by
  rw [toNat_and_not power, sum, rounded_eq (Nat.pos_of_isPowerOfTwo power)]

theorem toNat_guards {page : UInt64} (fits : 2 * page.toNat < 2 ^ 64) :
    (2 * page).toNat = 2 * page.toNat := by
  rw [UInt64.toNat_mul]
  exact Nat.mod_eq_of_lt (by simp only [UInt64.reduceToNat]; omega)

/-- No step of the layout overflows unless the extent of the tape does. -/
theorem layout_iff_extent {backend : Backend} (paged : Paged backend)
    {size usable total : UInt64} :
    layout size backend.pageSize = some (usable, total) ↔
      usable.toNat = rounded size.toNat backend.pageSize.toNat ∧
        total.toNat = extent size.toNat backend.pageSize.toNat := by
  obtain ⟨positive, small⟩ := paged.bounds
  have less := toNat_sub_one positive
  have guards : (2 * backend.pageSize).toNat = 2 * backend.pageSize.toNat :=
    toNat_guards (by omega)
  rw [layout_eq_some_iff]
  simp only [checkedAdd_eq_some_iff, less, guards, extent]
  constructor
  · rintro ⟨n, sum, rfl, whole⟩
    rw [toNat_and_not_eq_rounded paged.isPowerOfTwo sum] at whole ⊢
    exact ⟨rfl, whole⟩
  · rintro ⟨tape, whole⟩
    have covers := (isLeast_rounded size.toNat positive).1.2
    have word := total.toNat_lt
    have sum : (size + (backend.pageSize - 1)).toNat =
        size.toNat + (backend.pageSize.toNat - 1) := by
      rw [UInt64.toNat_add, less]
      exact Nat.mod_eq_of_lt (by omega)
    refine ⟨size + (backend.pageSize - 1), sum, ?_, whole.trans (by rw [tape])⟩
    apply UInt64.toNat_inj.mp
    rw [toNat_and_not_eq_rounded paged.isPowerOfTwo sum, tape]

theorem layout_eq_none_iff {backend : Backend} (paged : Paged backend) {size : UInt64} :
    layout size backend.pageSize = none ↔
      2 ^ 64 ≤ extent size.toNat backend.pageSize.toNat := by
  rw [Option.eq_none_iff_forall_ne_some]
  constructor
  · intro none
    by_contra fits
    have word : extent size.toNat backend.pageSize.toNat < 2 ^ 64 := Nat.lt_of_not_le fits
    have below : rounded size.toNat backend.pageSize.toNat < 2 ^ 64 := by
      simp only [extent] at word
      omega
    exact none _ ((layout_iff_extent paged).mpr
      ⟨UInt64.toNat_ofNat_of_lt' below, UInt64.toNat_ofNat_of_lt' word⟩)
  · rintro exceeds ⟨usable, total⟩ laid
    have word := total.toNat_lt
    have whole := ((layout_iff_extent paged).mp laid).2
    omega

theorem usable_eq_mask {backend : Backend} {size usable total : UInt64}
    (laid : layout size backend.pageSize = some (usable, total)) :
    usable = (size + (backend.pageSize - 1)) &&& ~~~(backend.pageSize - 1) := by
  obtain ⟨n, sum, rfl, -⟩ := layout_eq_some_iff.mp laid
  rw [checkedAdd] at sum
  split at sum
  · cases sum
    rfl
  · cases sum

theorem add_guards_of_layout {backend : Backend} {size usable total : UInt64}
    (laid : layout size backend.pageSize = some (usable, total)) :
    usable + 2 * backend.pageSize = total := by
  obtain ⟨-, -, -, whole⟩ := layout_eq_some_iff.mp laid
  have word := total.toNat_lt
  apply UInt64.toNat_inj.mp
  rw [checkedAdd_eq_some_iff] at whole
  rw [UInt64.toNat_add, ← whole]
  exact Nat.mod_eq_of_lt word

/-! ## Acquiring -/

/-- A reservation that lies in the address space and gets both guards is acquired.  The tape starts
where the first guard ends, and ends where the second one starts. -/
theorem install_of_granted {backend : Backend} (paged : Paged backend)
    {size usable total base : UInt64} (laid : layout size backend.pageSize = some (usable, total))
    (inside : base.toNat + total.toNat ≤ 2 ^ 64) (front : backend.refusesProtect 1 = none)
    (back : backend.refusesProtect 2 = none) :
    install backend size usable total base (total - backend.pageSize) =
        (.ok { start := base + backend.pageSize, len := size, usable,
               pageSize := backend.pageSize },
          [.protect base backend.pageSize,
            .protect (base + (total - backend.pageSize)) backend.pageSize]) ∧
      (base + backend.pageSize).toNat = base.toNat + backend.pageSize.toNat ∧
      (base + (total - backend.pageSize)).toNat =
        base.toNat + backend.pageSize.toNat + usable.toNat := by
  obtain ⟨positive, small⟩ := paged.bounds
  obtain ⟨tape, whole⟩ := (layout_iff_extent paged).mp laid
  simp only [extent, ← tape] at whole
  have start : (base + backend.pageSize).toNat = base.toNat + backend.pageSize.toNat := by
    rw [UInt64.toNat_add]
    exact Nat.mod_eq_of_lt (by omega)
  have short : (total - backend.pageSize).toNat = total.toNat - backend.pageSize.toNat :=
    UInt64.toNat_sub_of_le _ _ (UInt64.le_iff_toNat_le.mpr (by omega))
  have last : (base + (total - backend.pageSize)).toNat =
      base.toNat + backend.pageSize.toNat + usable.toNat := by
    rw [UInt64.toNat_add, short, Nat.mod_eq_of_lt (by omega)]
    omega
  have solid : base + backend.pageSize ≠ 0 := by
    intro null
    rw [null, UInt64.toNat_zero] at start
    omega
  refine ⟨?_, start, last⟩
  simp only [install, front, back, if_neg solid]

theorem install_asks_nothing (backend : Backend) (size usable total base distance : UInt64) :
    (install backend size usable total base distance).2.filter BackendCall.isReserve = [] ∧
      (install backend size usable total base distance).1 ≠ .error .emptyTape ∧
      ∀ n, (install backend size usable total base distance).1 ≠ .error (.tooLarge n) := by
  simp only [install]
  split
  · simp [BackendCall.isReserve]
  · split
    · simp [BackendCall.isReserve]
    · split
      · simp [BackendCall.isReserve]
      · simp [BackendCall.isReserve]

theorem acquire_of_laid {backend : Backend} {size usable total : UInt64} (positive : size ≠ 0)
    (laid : layout size backend.pageSize = some (usable, total)) :
    acquire backend size = match backend.reserve total with
      | .error cause => (.error (.reserve cause), [.reserve total])
      | .ok base =>
          (install backend size usable total base (total - backend.pageSize)).map id
            (.reserve total :: ·) := by
  cases reserved : backend.reserve total with
  | error cause => simp only [acquire_eq, if_neg positive, laid, reserved]
  | ok base => simp only [acquire_eq, if_neg positive, laid, reserved]

theorem acquire_asks_once {backend : Backend} {size usable total : UInt64} (positive : size ≠ 0)
    (laid : layout size backend.pageSize = some (usable, total)) :
    (acquire backend size).2.filter BackendCall.isReserve = [.reserve total] ∧
      (acquire backend size).1 ≠ .error .emptyTape ∧
      ∀ n, (acquire backend size).1 ≠ .error (.tooLarge n) := by
  rw [acquire_of_laid positive laid]
  split
  · simp [BackendCall.isReserve]
  · next base granted =>
      obtain ⟨silent, nonempty, small⟩ := install_asks_nothing backend size usable total base
        (total - backend.pageSize)
      refine ⟨?_, nonempty, small⟩
      rw [Prod.map_snd, List.filter_cons_of_pos rfl, silent]

/-! ## Parting -/

theorem partings_none (backend : Backend) (list : List Parting) :
    partings backend none list = [] := by
  induction list with
  | nil => rfl
  | cons parting rest ih => exact ih

/-- A reservation is given back by the first parting with it and by no other, whether or not the
backend takes it. -/
theorem partings_of_held (backend : Backend) (r : Reservation) (first : Parting)
    (rest : List Parting) :
    partings backend (some r) (first :: rest) =
      [.release (r.start - r.pageSize) (r.usable + 2 * r.pageSize)] := by
  have once : (r.release backend).2 =
      [.release (r.start - r.pageSize) (r.usable + 2 * r.pageSize)] := by
    rw [release_eq]
    cases backend.refusesRelease with
    | none => rfl
    | some cause => rfl
  have dropped : (r.drop backend).2 = (r.release backend).2 := by
    simp only [drop]
    split <;> next given => rw [given]
  cases first with
  | release => simp only [partings, part, partings_none, once, List.append_nil]
  | drop => simp only [partings, part, partings_none, dropped, once, List.append_nil]

/-- A tape is refused without a call if it is empty or if its extent is not a word, and otherwise
its extent is asked for once.  If that is granted within the address space and both guards are
installed, the tape has the size asked for and covers it in as few whole pages as possible; the
guards are the first and the last page of the reservation, and the tape fills what is between them.
Parting with it gives back the whole reservation, once. -/
theorem layout_and_lifecycle (backend : Backend) (size : UInt64) (paged : Paged backend) :
    ((acquire backend size).1 = .error .emptyTape ↔ size = 0) ∧
    (∀ n, (acquire backend size).1 = .error (.tooLarge n) ↔
      n = size ∧ size ≠ 0 ∧ 2 ^ 64 ≤ extent size.toNat backend.pageSize.toNat) ∧
    (size = 0 ∨ 2 ^ 64 ≤ extent size.toNat backend.pageSize.toNat →
      (acquire backend size).2 = []) ∧
    (size ≠ 0 → extent size.toNat backend.pageSize.toNat < 2 ^ 64 →
      ∃ total : UInt64, total.toNat = extent size.toNat backend.pageSize.toNat ∧
        (acquire backend size).2.filter BackendCall.isReserve = [.reserve total] ∧
        ∀ base, backend.reserve total = .ok base → base.toNat + total.toNat ≤ 2 ^ 64 →
          backend.refusesProtect 1 = none → backend.refusesProtect 2 = none →
          ∃ r back, acquire backend size =
              (.ok r, [.reserve total, .protect base backend.pageSize,
                .protect back backend.pageSize]) ∧
            r.len = size ∧
            r.usable = (size + (backend.pageSize - 1)) &&& ~~~(backend.pageSize - 1) ∧
            IsLeast { n | backend.pageSize.toNat ∣ n ∧ size.toNat ≤ n } r.usable.toNat ∧
            r.start.toNat = base.toNat + backend.pageSize.toNat ∧
            back.toNat = r.start.toNat + r.usable.toNat ∧
            back.toNat + backend.pageSize.toNat = base.toNat + total.toNat ∧
            ∀ first rest, partings backend (some r) (first :: rest) = [.release base total]) := by
  by_cases empty : size = 0
  · have refused : acquire backend size = (.error .emptyTape, []) := by
      rw [acquire_eq, if_pos empty]
    rw [refused]
    refine ⟨iff_of_true rfl empty, ?_, fun _ => rfl, fun positive => absurd empty positive⟩
    intro n
    exact iff_of_false (by simp) fun large => large.2.1 empty
  · cases laid : layout size backend.pageSize with
    | none =>
        have exceeds := (layout_eq_none_iff paged).mp laid
        have refused : acquire backend size = (.error (.tooLarge size), []) := by
          rw [acquire_eq, if_neg empty, laid]
        rw [refused]
        refine ⟨iff_of_false (by simp) empty, ?_, fun _ => rfl,
          fun _ fits => absurd exceeds (Nat.not_le.mpr fits)⟩
        intro n
        constructor
        · rintro ⟨rfl⟩
          exact ⟨rfl, empty, exceeds⟩
        · rintro ⟨rfl, -⟩
          rfl
    | some sizes =>
        obtain ⟨usable, total⟩ := sizes
        obtain ⟨tape, whole⟩ := (layout_iff_extent paged).mp laid
        obtain ⟨once, nonempty, small⟩ := acquire_asks_once empty laid
        have fits : ¬ 2 ^ 64 ≤ extent size.toNat backend.pageSize.toNat :=
          Nat.not_le.mpr (whole ▸ total.toNat_lt)
        refine ⟨iff_of_false nonempty empty, fun n => iff_of_false (small n) fun h => fits h.2.2,
          fun h => absurd h (not_or.mpr ⟨empty, fits⟩), fun _ _ => ⟨total, whole, once, ?_⟩⟩
        intro base granted inside front back
        obtain ⟨installed, start, last⟩ := install_of_granted paged laid inside front back
        refine ⟨{ start := base + backend.pageSize, len := size, usable,
                  pageSize := backend.pageSize },
          base + (total - backend.pageSize), ?_, rfl, usable_eq_mask laid, ?_,
          start, ?_, ?_, ?_⟩
        · rw [acquire_of_laid empty laid, granted]
          simp only [installed, Prod.map, id]
        · rw [tape]
          exact isLeast_rounded size.toNat paged.bounds.1
        · rw [last, start]
        · rw [last, whole, tape, extent]
          omega
        · intro first rest
          rw [partings_of_held, UInt64.add_sub_cancel, add_guards_of_layout laid]

def grudging : Backend where
  pageSize := 4096
  reserve _ := .ok 0x10000
  refusesProtect _ := none
  refusesRelease := some "release refused"

theorem lifecycle_grudging :
    ∃ r calls, acquire grudging 30000 = (.ok r, calls) ∧
      IsLeast { n | 4096 ∣ n ∧ 30000 ≤ n } r.usable.toNat ∧
      (r.release grudging).1 = .error (.release "release refused") ∧
      partings grudging (some r) [.release, .drop, .release] = [.release 0x10000 40960] := by
  obtain ⟨-, -, -, acquired⟩ := layout_and_lifecycle grudging 30000 ⟨12, by decide, rfl⟩
  obtain ⟨total, whole, -, granted⟩ := acquired (by decide) (by decide)
  obtain rfl : total = 40960 := UInt64.toNat_inj.mp whole
  obtain ⟨r, back, ok, -, -, least, -, -, -, once⟩ := granted 0x10000 rfl (by decide) rfl rfl
  exact ⟨r, _, ok, least, rfl, once .release [.drop, .release]⟩

end Reservation

end FencedTape
