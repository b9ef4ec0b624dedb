import FencedTape.Proofs.Scan
import Mathlib.Order.Bounds.Basic
import Mathlib.Order.Interval.Set.Defs

/-! # Where scans end

From a cell on the tape a scan ends at the nearest zero on the tape, or just outside it, and never
faults.  From a cell past the tape it ends at the nearest zero among all usable cells, and faults
behind them if there is none.  From anywhere else it faults at once.

`Tape.Sweeps` says how a scan gets there: it looks at one cell after the other, as long as it may,
and its count bounds the cells.  A scan from a cell on the tape looks at no cell off the tape
(`Tape.Within`), and every scan comes to an end (`exists_sweeps`). -/

set_option autoImplicit false

namespace FencedTape

namespace Tape

def zeros (t : Tape) : Set Nat := {index | t.cells.get index = 0}

/-- Going from cell to cell from a position, `count` cells are looked at before the end, which is
at a zero, at the first position that may not be looked at, or a fault. -/
inductive Sweeps (t : Tape) (direction : Direction) (allowed : Int64 → Prop) :
    Int64 → (count : Nat) → Except Int Int → Prop
  | outside {position : Int64} (barred : ¬ allowed position) :
      Sweeps t direction allowed position 0 (.ok position.toInt)
  | fault {position : Int64} (free : allowed position) (none : t.load? position = none) :
      Sweeps t direction allowed position 1 (.error position.toInt)
  | zero {position : Int64} (free : allowed position) (here : t.load? position = some 0) :
      Sweeps t direction allowed position 1 (.ok position.toInt)
  | next {position : Int64} {value : UInt8} {count : Nat} {result : Except Int Int}
      (free : allowed position) (here : t.load? position = some value) (nonzero : value ≠ 0)
      (rest : Sweeps t direction allowed (position + direction.delta) count result) :
      Sweeps t direction allowed position (count + 1) result

/-- Where a scan from a position may look: only on the tape, if it starts there. -/
def Within (t : Tape) (start position : Int64) : Prop := t.OnTape start → t.OnTape position

/-- The end of the cells among which a scan to the right looks for a zero. -/
def reach (t : Tape) (index : Nat) : Nat := if index < t.len then t.len else t.usable

theorem reach_le (t : Tape) (index : Nat) : t.reach index ≤ t.usable := by
  rw [reach]
  split_ifs
  · exact t.len_le_usable
  · exact Nat.le_refl _

theorem lt_reach {t : Tape} {index : Nat} (h : index < t.usable) : index < t.reach index := by
  rw [reach]
  split_ifs with onTape
  · exact onTape
  · exact h

theorem scan_right {t : Tape} {position : Int64} {index : Nat}
    (found : t.index? position = some index) :
    t.scan position .right = match zeroUp t.cells index (t.reach index - index) with
      | some zeroAt => .ok (Int64.ofNat zeroAt)
      | none =>
          if index < t.len then .ok (Int64.ofNat (t.reach index))
          else .error (Int64.ofNat (t.reach index)) := by
  simp only [scan_right_eq, found, reach]
  split_ifs with onTape
  · rfl
  · rfl

/-! ## The nearest zero -/

theorem zeroDown_of_isGreatest {t : Tape} {index found : Nat}
    (h : IsGreatest (t.zeros ∩ Set.Iic index) found) : zeroDown t.cells index = some found := by
  obtain ⟨⟨here, below⟩, greatest⟩ := h
  rw [zeroDown_eq_some_iff]
  refine ⟨below, here, ?_⟩
  intro i above le zeroAt
  have bound := greatest ⟨zeroAt, le⟩
  omega

theorem zeroDown_of_empty {t : Tape} {index : Nat} (h : t.zeros ∩ Set.Iic index = ∅) :
    zeroDown t.cells index = none := by
  rw [zeroDown_eq_none_iff]
  intro i le zeroAt
  exact Set.eq_empty_iff_forall_notMem.mp h i ⟨zeroAt, le⟩

theorem zeroUp_of_isLeast {t : Tape} {index bound found : Nat}
    (h : IsLeast (t.zeros ∩ Set.Ico index bound) found) :
    zeroUp t.cells index (bound - index) = some found := by
  obtain ⟨⟨here, above, below⟩, least⟩ := h
  rw [zeroUp_eq_some_iff]
  refine ⟨above, by omega, here, ?_⟩
  intro i le less zeroAt
  have bound := least ⟨zeroAt, le, by omega⟩
  omega

theorem zeroUp_of_empty {t : Tape} {index bound : Nat}
    (h : t.zeros ∩ Set.Ico index bound = ∅) : zeroUp t.cells index (bound - index) = none := by
  rw [zeroUp_eq_none_iff]
  intro i le less zeroAt
  exact Set.eq_empty_iff_forall_notMem.mp h i ⟨zeroAt, le, by omega⟩

/-! ## One cell after the other -/

theorem toInt_ofNat_of_le {t : Tape} {index : Nat} (h : index ≤ t.usable) :
    (Int64.ofNat index).toInt = index :=
  Int64.toInt_ofNat_of_lt (Nat.lt_of_le_of_lt h t.usable_lt)

theorem load?_ofNat {t : Tape} {index : Nat} (h : index < t.usable) :
    t.load? (Int64.ofNat index) = some (t.cells.get index) :=
  load?_of_index? (index?_ofNat h)

theorem sweeps_of_zero {t : Tape} {direction : Direction} {allowed : Int64 → Prop} {index : Nat}
    (inside : index < t.usable) (free : allowed (Int64.ofNat index))
    (zeroAt : t.cells.get index = 0) :
    Sweeps t direction allowed (Int64.ofNat index) 1 (.ok index) := by
  have here := load?_ofNat inside
  rw [zeroAt] at here
  have sweep : Sweeps t direction allowed (Int64.ofNat index) 1
      (.ok (Int64.ofNat index).toInt) := .zero free here
  rwa [toInt_ofNat_of_le (Nat.le_of_lt inside)] at sweep

theorem not_onTape_of_index? {t : Tape} {position : Int64} (h : t.index? position = none) :
    ¬ t.OnTape position := by
  intro onTape
  have covers := t.len_le_usable
  obtain ⟨lower, upper⟩ := onTape
  apply index?_eq_none_iff.mp h
  omega

theorem not_onTape_len (t : Tape) : ¬ t.OnTape (Int64.ofNat t.len) := by
  intro onTape
  have upper := onTape.2
  rw [toInt_ofNat_of_le t.len_le_usable] at upper
  omega

theorem sweeps_outside {t : Tape} {direction : Direction} {start position : Int64}
    (onTape : t.OnTape start) (off : ¬ t.OnTape position) :
    Sweeps t direction (t.Within start) position 0 (.ok position.toInt) := by
  apply Sweeps.outside
  intro within
  exact off (within onTape)

theorem sweeps_fault {t : Tape} {direction : Direction} {start position : Int64}
    (off : ¬ t.OnTape start) (none : t.index? position = none) :
    Sweeps t direction (t.Within start) position 1 (.error position.toInt) := by
  apply Sweeps.fault
  · intro onTape
    exact absurd onTape off
  · exact load?_of_outside none

theorem within_ofNat {t : Tape} {start : Int64} {index i : Nat}
    (found : t.index? start = some index) (inside : i < t.usable)
    (stays : index < t.len → i < t.len) : t.Within start (Int64.ofNat i) := by
  intro onTape
  rw [onTape_iff (index?_ofNat inside)]
  exact stays ((onTape_iff found).mp onTape)

theorem within_of_lt_reach {t : Tape} {start : Int64} {index i : Nat}
    (found : t.index? start = some index) (below : i < t.reach index) :
    t.Within start (Int64.ofNat i) := by
  apply within_ofNat found (Nat.lt_of_lt_of_le below (t.reach_le index))
  intro onTape
  rwa [reach, if_pos onTape] at below

theorem exists_sweeps_edge_left {t : Tape} {start : Int64} {index : Nat}
    (found : t.index? start = some index) :
    ∃ more ≤ 1, Sweeps t .left (t.Within start) (-1) more
      (if index < t.len then .ok (-1) else .error (-1)) := by
  have onTape := onTape_iff found
  split_ifs with on
  · have off := not_onTape_of_index? t.index?_neg_one
    exact ⟨0, by omega, sweeps_outside (onTape.mpr on) off⟩
  · exact ⟨1, by omega, sweeps_fault (mt onTape.mp on) t.index?_neg_one⟩

theorem exists_sweeps_edge_right {t : Tape} {start : Int64} {index : Nat}
    (found : t.index? start = some index) :
    ∃ more ≤ 1, Sweeps t .right (t.Within start) (Int64.ofNat (t.reach index)) more
      (if index < t.len then .ok (t.reach index) else .error (t.reach index)) := by
  have onTape := onTape_iff found
  rw [← toInt_ofNat_of_le (t.reach_le index)]
  split_ifs with on
  · refine ⟨0, by omega, sweeps_outside (onTape.mpr on) ?_⟩
    rw [reach, if_pos on]
    exact t.not_onTape_len
  · refine ⟨1, by omega, sweeps_fault (mt onTape.mp on) ?_⟩
    rw [reach, if_neg on]
    exact t.index?_usable

theorem exists_sweeps_left {t : Tape} {allowed : Int64 → Prop} {edge : Except Int Int}
    {more index : Nat} (inside : index < t.usable)
    (free : ∀ i ≤ index, allowed (Int64.ofNat i)) (before : Sweeps t .left allowed (-1) more edge) :
    ∃ count ≤ index + 1 + more, Sweeps t .left allowed (Int64.ofNat index) count
      (match zeroDown t.cells index with
        | some found => .ok found
        | none => edge) := by
  induction index with
  | zero =>
      have first := free 0 (Nat.le_refl 0)
      rw [zeroDown]
      split_ifs with zeroAt
      · exact ⟨1, by omega, sweeps_of_zero inside first zeroAt⟩
      · exact ⟨more + 1, by omega, .next first (load?_ofNat inside) zeroAt before⟩
  | succ index ih =>
      have last := free (index + 1) (Nat.le_refl _)
      rw [zeroDown]
      split_ifs with zeroAt
      · exact ⟨1, by omega, sweeps_of_zero inside last zeroAt⟩
      · obtain ⟨count, le, rest⟩ := ih (by omega) fun i below => free i (by omega)
        rw [← ofNat_succ_left index] at rest
        exact ⟨count + 1, by omega, .next last (load?_ofNat inside) zeroAt rest⟩

theorem exists_sweeps_right {t : Tape} {allowed : Int64 → Prop} {edge : Except Int Int}
    {more index length bound : Nat} (whole : index + length = bound) (inside : bound ≤ t.usable)
    (free : ∀ i, index ≤ i → i < bound → allowed (Int64.ofNat i))
    (behind : Sweeps t .right allowed (Int64.ofNat bound) more edge) :
    ∃ count ≤ length + more, Sweeps t .right allowed (Int64.ofNat index) count
      (match zeroUp t.cells index length with
        | some found => .ok found
        | none => edge) := by
  induction length generalizing index with
  | zero =>
      rw [← whole] at behind
      exact ⟨more, by omega, behind⟩
  | succ length ih =>
      have first := free index (Nat.le_refl index) (by omega)
      have here : index < t.usable := by omega
      rw [zeroUp]
      split_ifs with zeroAt
      · exact ⟨1, by omega, sweeps_of_zero here first zeroAt⟩
      · have fewer : index + 1 + length = bound := by omega
        obtain ⟨count, le, rest⟩ := ih fewer fun i above below => free i (by omega) below
        rw [← ofNat_right index] at rest
        exact ⟨count + 1, by omega, .next first (load?_ofNat here) zeroAt rest⟩

end Tape

namespace Machine

/-- A scan ends with the data pointer at a position, or with a fault at one, and changes nothing
else. -/
def ScanEnds (m : Machine) (direction : Direction) : Except Int Int → Prop
  | .ok position =>
      ∃ dp, dp.toInt = position ∧ m.perform (.scan direction) = ({ m with dp }, .done)
  | .error position =>
      ∃ fault, fault.toInt = position ∧ m.perform (.scan direction) = (m, .fault fault)

theorem scanEnds_of_ok {m : Machine} {direction : Direction} {dp : Int64}
    (h : m.tape.scan m.dp direction = .ok dp) : m.ScanEnds direction (.ok dp.toInt) := by
  refine ⟨dp, rfl, ?_⟩
  simp only [perform, h]

theorem scanEnds_of_error {m : Machine} {direction : Direction} {fault : Int64}
    (h : m.tape.scan m.dp direction = .error fault) :
    m.ScanEnds direction (.error fault.toInt) := by
  refine ⟨fault, rfl, ?_⟩
  simp only [perform, h]

theorem scanEnds_of_outside {m : Machine} (h : m.tape.index? m.dp = none) (direction : Direction) :
    m.ScanEnds direction (.error m.dp.toInt) :=
  scanEnds_of_error (Tape.scan_of_outside h direction)

theorem scanEnds_left {m : Machine} {index : Nat} (found : m.tape.index? m.dp = some index) :
    m.ScanEnds .left (match Tape.zeroDown m.tape.cells index with
      | some zeroAt => .ok zeroAt
      | none => if index < m.tape.len then .ok (-1) else .error (-1)) := by
  have inside := (Tape.index?_eq_some_iff.mp found).2
  cases searched : Tape.zeroDown m.tape.cells index with
  | some nearest =>
      have below := (Tape.zeroDown_eq_some_iff.mp searched).1
      have ends : m.tape.scan m.dp .left = .ok (Int64.ofNat nearest) := by
        simp only [Tape.scan_left_eq, found, searched]
      have landing := scanEnds_of_ok ends
      rwa [Tape.toInt_ofNat_of_le (t := m.tape) (by omega)] at landing
  | none =>
      by_cases onTape : index < m.tape.len
      · have ends : m.tape.scan m.dp .left = .ok (-1) := by
          simp only [Tape.scan_left_eq, found, searched, if_pos onTape]
        simp only [if_pos onTape]
        exact scanEnds_of_ok ends
      · have ends : m.tape.scan m.dp .left = .error (-1) := by
          simp only [Tape.scan_left_eq, found, searched, if_neg onTape]
        simp only [if_neg onTape]
        exact scanEnds_of_error ends

theorem scanEnds_right {m : Machine} {index : Nat} (found : m.tape.index? m.dp = some index) :
    m.ScanEnds .right (match Tape.zeroUp m.tape.cells index (m.tape.reach index - index) with
      | some zeroAt => .ok zeroAt
      | none =>
          if index < m.tape.len then .ok (m.tape.reach index)
          else .error (m.tape.reach index)) := by
  have inside := (Tape.index?_eq_some_iff.mp found).2
  have within := m.tape.reach_le index
  have ends := Tape.scan_right found
  cases searched : Tape.zeroUp m.tape.cells index (m.tape.reach index - index) with
  | some nearest =>
      have below := (Tape.zeroUp_eq_some_iff.mp searched).2.1
      rw [searched] at ends
      have landing := scanEnds_of_ok ends
      rwa [Tape.toInt_ofNat_of_le (t := m.tape) (by omega)] at landing
  | none =>
      rw [searched] at ends
      by_cases onTape : index < m.tape.len
      · simp only [if_pos onTape] at ends ⊢
        have landing := scanEnds_of_ok ends
        rwa [Tape.toInt_ofNat_of_le within] at landing
      · simp only [if_neg onTape] at ends ⊢
        have landing := scanEnds_of_error ends
        rwa [Tape.toInt_ofNat_of_le within] at landing

theorem scanEnds_of_isGreatest {m : Machine} {index nearest : Nat}
    (found : m.tape.index? m.dp = some index)
    (greatest : IsGreatest (m.tape.zeros ∩ Set.Iic index) nearest) :
    m.ScanEnds .left (.ok nearest) := by
  have ends := scanEnds_left found
  rwa [Tape.zeroDown_of_isGreatest greatest] at ends

theorem scanEnds_of_no_zero_left {m : Machine} {index : Nat}
    (found : m.tape.index? m.dp = some index) (empty : m.tape.zeros ∩ Set.Iic index = ∅) :
    m.ScanEnds .left (if index < m.tape.len then .ok (-1) else .error (-1)) := by
  have ends := scanEnds_left found
  rwa [Tape.zeroDown_of_empty empty] at ends

theorem scanEnds_of_isLeast {m : Machine} {index nearest : Nat}
    (found : m.tape.index? m.dp = some index)
    (least : IsLeast (m.tape.zeros ∩ Set.Ico index (m.tape.reach index)) nearest) :
    m.ScanEnds .right (.ok nearest) := by
  have ends := scanEnds_right found
  rwa [Tape.zeroUp_of_isLeast least] at ends

theorem scanEnds_of_no_zero_right {m : Machine} {index : Nat}
    (found : m.tape.index? m.dp = some index)
    (empty : m.tape.zeros ∩ Set.Ico index (m.tape.reach index) = ∅) :
    m.ScanEnds .right (if index < m.tape.len then .ok (m.tape.reach index)
      else .error (m.tape.reach index)) := by
  have ends := scanEnds_right found
  rwa [Tape.zeroUp_of_empty empty] at ends

/-! ## How a scan gets there -/

theorem exists_sweeps_of_index? {m : Machine} {index : Nat}
    (found : m.tape.index? m.dp = some index) (direction : Direction) :
    ∃ count ≤ m.tape.usable + 1, ∃ result,
      m.tape.Sweeps direction (m.tape.Within m.dp) m.dp count result ∧
        m.ScanEnds direction result := by
  have inside := (Tape.index?_eq_some_iff.mp found).2
  have here := Tape.eq_ofNat_of_index? found
  cases direction with
  | left =>
      obtain ⟨more, few, before⟩ := Tape.exists_sweeps_edge_left found
      obtain ⟨count, le, sweep⟩ := Tape.exists_sweeps_left inside
        (fun i below => Tape.within_ofNat found (by omega) (by omega)) before
      rw [← here] at sweep
      exact ⟨count, by omega, _, sweep, scanEnds_left found⟩
  | right =>
      have within := m.tape.reach_le index
      have past := Tape.lt_reach inside
      have whole : index + (m.tape.reach index - index) = m.tape.reach index := by omega
      obtain ⟨more, few, behind⟩ := Tape.exists_sweeps_edge_right found
      obtain ⟨count, le, sweep⟩ := Tape.exists_sweeps_right whole within
        (fun i above below => Tape.within_of_lt_reach found below) behind
      rw [← here] at sweep
      exact ⟨count, by omega, _, sweep, scanEnds_right found⟩

/-- A scan looks at one cell after the other, and only at cells of the tape if it starts there. -/
theorem exists_sweeps (m : Machine) (direction : Direction) :
    ∃ count ≤ m.tape.usable + 1, ∃ result,
      m.tape.Sweeps direction (m.tape.Within m.dp) m.dp count result ∧
        m.ScanEnds direction result := by
  cases found : m.tape.index? m.dp with
  | none =>
      have off : ¬ m.tape.OnTape m.dp := Tape.not_onTape_of_index? found
      exact ⟨1, by omega, _, Tape.sweeps_fault off found, scanEnds_of_outside found direction⟩
  | some index => exact exists_sweeps_of_index? found direction

/-- From a cell on the tape a scan ends at the nearest zero of the tape, or just outside it.  From
a cell past the tape it ends at the nearest zero of all usable cells, or faults behind them; from
anywhere else it faults at once.  It always comes to an end, one cell after the other. -/
theorem scan_ends_at_nearest_zero (m : Machine) :
    (∀ index : Nat, m.dp.toInt = index → index < m.tape.len →
      (∀ found : Nat, IsGreatest (m.tape.zeros ∩ Set.Iic index) found →
        m.ScanEnds .left (.ok found)) ∧
      (m.tape.zeros ∩ Set.Iic index = ∅ → m.ScanEnds .left (.ok (-1))) ∧
      (∀ found : Nat, IsLeast (m.tape.zeros ∩ Set.Ico index m.tape.len) found →
        m.ScanEnds .right (.ok found)) ∧
      (m.tape.zeros ∩ Set.Ico index m.tape.len = ∅ → m.ScanEnds .right (.ok m.tape.len))) ∧
    (∀ index : Nat, m.dp.toInt = index → m.tape.len ≤ index → index < m.tape.usable →
      (∀ found : Nat, IsGreatest (m.tape.zeros ∩ Set.Iic index) found →
        m.ScanEnds .left (.ok found)) ∧
      (m.tape.zeros ∩ Set.Iic index = ∅ → m.ScanEnds .left (.error (-1))) ∧
      (∀ found : Nat, IsLeast (m.tape.zeros ∩ Set.Ico index m.tape.usable) found →
        m.ScanEnds .right (.ok found)) ∧
      (m.tape.zeros ∩ Set.Ico index m.tape.usable = ∅ →
        m.ScanEnds .right (.error m.tape.usable))) ∧
    (m.dp.toInt < 0 ∨ m.tape.usable ≤ m.dp.toInt →
      ∀ direction, m.ScanEnds direction (.error m.dp.toInt)) ∧
    ∀ direction, ∃ count ≤ m.tape.usable + 1, ∃ result,
      m.tape.Sweeps direction (m.tape.Within m.dp) m.dp count result ∧
        m.ScanEnds direction result := by
  have covers := m.tape.len_le_usable
  refine ⟨?_, ?_, ?_, m.exists_sweeps⟩
  · intro index value onTape
    have found : m.tape.index? m.dp = some index :=
      Tape.index?_eq_some_iff.mpr ⟨value, by omega⟩
    have stays : m.tape.reach index = m.tape.len := if_pos onTape
    rw [← stays]
    refine ⟨fun nearest => scanEnds_of_isGreatest found, ?_,
      fun nearest => scanEnds_of_isLeast found, ?_⟩
    · intro empty
      have ends := scanEnds_of_no_zero_left found empty
      rwa [if_pos onTape] at ends
    · intro empty
      have ends := scanEnds_of_no_zero_right found empty
      rwa [if_pos onTape] at ends
  · intro index value past inside
    have found : m.tape.index? m.dp = some index := Tape.index?_eq_some_iff.mpr ⟨value, inside⟩
    have off : ¬ index < m.tape.len := Nat.not_lt.mpr past
    have leaves : m.tape.reach index = m.tape.usable := if_neg off
    rw [← leaves]
    refine ⟨fun nearest => scanEnds_of_isGreatest found, ?_,
      fun nearest => scanEnds_of_isLeast found, ?_⟩
    · intro empty
      have ends := scanEnds_of_no_zero_left found empty
      rwa [if_neg off] at ends
    · intro empty
      have ends := scanEnds_of_no_zero_right found empty
      rwa [if_neg off] at ends
  · intro outside direction
    apply scanEnds_of_outside
    rw [Tape.index?_eq_none_iff]
    omega

end Machine

end FencedTape
