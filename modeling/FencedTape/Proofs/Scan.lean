import FencedTape.Proofs.BigStep

/-! # Scans and the loops they stand for

A scan that starts on the tape stays on it, and one that starts elsewhere goes from cell to cell;
a loop around a movement by one cell always does the latter.  `Tape.search` says where going from
cell to cell ends.  The loop ends there (`bigStep_walk`), and so do two scans, the second of which
goes on where the first has left the tape (`scan_bind_scan`).  One scan is enough unless it starts
on the tape and finds no zero there (`scan_eq_search`). -/

set_option autoImplicit false

namespace FencedTape

namespace Tape

def OnTape (t : Tape) (position : Int64) : Prop :=
  0 ≤ position.toInt ∧ position.toInt < t.len

def ZeroAhead (t : Tape) (position : Int64) : Direction → Prop
  | .left => ∃ i : Nat, i < t.len ∧ i ≤ position.toInt ∧ t.cells.get i = 0
  | .right => ∃ i : Nat, i < t.len ∧ position.toInt ≤ i ∧ t.cells.get i = 0

/-- Where going from cell to cell ends: at the first zero, or with a fault behind the last usable
cell. -/
def search (t : Tape) (position : Int64) (direction : Direction) : Except Int64 Int64 :=
  t.stepUntilZero direction (t.usable + 1) position

def ahead (t : Tape) (position : Int64) (direction : Direction) : Nat :=
  match t.index? position with
  | none => 0
  | some index =>
      match direction with
      | .left => index + 1
      | .right => t.usable - index

/-! ## Positions -/

theorem onTape_iff {t : Tape} {position : Int64} {index : Nat}
    (h : t.index? position = some index) : t.OnTape position ↔ index < t.len := by
  obtain ⟨value, -⟩ := index?_eq_some_iff.mp h
  rw [OnTape, value]
  omega

/-! ## One cell after the other -/

theorem search_eq (t : Tape) (position : Int64) (direction : Direction) :
    t.search position direction = match t.index? position with
      | none => .error position
      | some index =>
          match direction with
          | .left =>
              match zeroDown t.cells index with
              | some found => .ok (Int64.ofNat found)
              | none => .error (-1)
          | .right =>
              match zeroUp t.cells index (t.usable - index) with
              | some found => .ok (Int64.ofNat found)
              | none => .error (Int64.ofNat t.usable) := by
  cases found : t.index? position with
  | none => exact stepUntilZero_of_outside found direction _
  | some index =>
      have inside := (index?_eq_some_iff.mp found).2
      rw [search, eq_ofNat_of_index? found]
      cases direction with
      | left => exact stepUntilZero_left inside (by omega)
      | right => exact stepUntilZero_right (by omega) (by omega)

theorem search_of_none {t : Tape} {position : Int64} (h : t.load? position = none)
    (direction : Direction) : t.search position direction = .error position := by
  rw [search, stepUntilZero, h]

theorem search_of_zero {t : Tape} {position : Int64} (h : t.load? position = some 0)
    (direction : Direction) : t.search position direction = .ok position := by
  rw [search, stepUntilZero, h]
  exact if_pos rfl

theorem search_of_nonzero {t : Tape} {position : Int64} {value : UInt8}
    (h : t.load? position = some value) (nonzero : value ≠ 0) (direction : Direction) :
    t.search position direction = t.search (position + direction.delta) direction ∧
      t.ahead (position + direction.delta) direction < t.ahead position direction := by
  obtain ⟨index, found, stored⟩ := Option.map_eq_some_iff.mp h
  have inside := (index?_eq_some_iff.mp found).2
  have cell : t.cells.get index ≠ 0 := stored ▸ nonzero
  rw [eq_ofNat_of_index? found]
  rw [eq_ofNat_of_index? found] at found
  cases direction with
  | left =>
      cases index with
      | zero =>
          have before : t.index? (Int64.ofNat 0 + Direction.delta .left) = none := t.index?_neg_one
          simp only [search_eq, ahead, found, before, zeroDown, if_neg cell]
          exact ⟨rfl, Nat.one_pos⟩
      | succ index =>
          have next := index?_ofNat (t := t) (Nat.lt_of_succ_lt inside)
          rw [ofNat_succ_left]
          simp only [search_eq, ahead, found, next, zeroDown, if_neg cell]
          exact ⟨trivial, Nat.lt_succ_self _⟩
  | right =>
      obtain ⟨count, rest⟩ : ∃ count, t.usable - index = count + 1 :=
        ⟨t.usable - index - 1, by omega⟩
      rw [ofNat_right]
      by_cases last : index + 1 = t.usable
      · have only : count = 0 := by omega
        rw [last]
        simp only [search_eq, ahead, found, t.index?_usable, rest, only, zeroUp, if_neg cell]
        exact ⟨trivial, Nat.succ_pos _⟩
      · have inside' : index + 1 < t.usable := by omega
        have next := index?_ofNat inside'
        have fewer : t.usable - (index + 1) = count := by omega
        simp only [search_eq, ahead, found, next, rest, fewer, zeroUp, if_neg cell]
        exact ⟨trivial, Nat.lt_succ_self _⟩

/-! ## Scans -/

theorem zeroUp_add (m : Memory) (index count more : Nat) :
    zeroUp m index (count + more) = (zeroUp m index count).or (zeroUp m (index + count) more) := by
  induction count generalizing index with
  | zero => simp [zeroUp]
  | succ count ih =>
      rw [Nat.succ_add, zeroUp, zeroUp]
      split
      · rfl
      · rw [ih, Nat.add_right_comm, Nat.add_assoc]

theorem search_right {t : Tape} {position : Int64} {index : Nat}
    (found : t.index? position = some index) (onTape : index < t.len) :
    t.search position .right = match zeroUp t.cells index (t.len - index) with
      | some first => .ok (Int64.ofNat first)
      | none => t.search (Int64.ofNat t.len) .right := by
  have le := t.len_le_usable
  have split : t.usable - index = (t.len - index) + (t.usable - t.len) := by omega
  have ends : index + (t.len - index) = t.len := by omega
  simp only [search_eq, found]
  rw [split, zeroUp_add, ends]
  cases zeroUp t.cells index (t.len - index) with
  | some first => rfl
  | none =>
      rw [Option.none_or]
      by_cases aligned : t.len = t.usable
      · rw [aligned, t.index?_usable, Nat.sub_self]
        rfl
      · have less : t.len < t.usable := by omega
        rw [index?_ofNat less]

theorem scan_eq_search {t : Tape} {position : Int64} {direction : Direction}
    (h : ¬ t.OnTape position ∨ t.ZeroAhead position direction) :
    t.scan position direction = t.search position direction := by
  cases found : t.index? position with
  | none => rw [scan_of_outside found, search, stepUntilZero_of_outside found]
  | some index =>
      obtain ⟨value, inside⟩ := index?_eq_some_iff.mp found
      rw [onTape_iff found] at h
      by_cases onTape : index < t.len
      · have zero := h.resolve_left (not_not.mpr onTape)
        cases direction with
        | left =>
            simp only [scan_left_eq, search_eq, found]
            cases searched : zeroDown t.cells index with
            | some first => rfl
            | none =>
                obtain ⟨i, -, le, zeroAt⟩ := zero
                exact absurd zeroAt (zeroDown_eq_none_iff.mp searched i (by omega))
        | right =>
            rw [search_right found onTape]
            simp only [scan_right_eq, found, if_pos onTape]
            cases searched : zeroUp t.cells index (t.len - index) with
            | some first => rfl
            | none =>
                obtain ⟨i, less, le, zeroAt⟩ := zero
                exact absurd zeroAt (zeroUp_eq_none_iff.mp searched i (by omega) (by omega))
      · rw [scan_of_index? found, if_neg onTape, search]

theorem scan_of_zero {t : Tape} {position : Int64} (h : t.load? position = some 0)
    (direction : Direction) : t.scan position direction = .ok position := by
  rw [scan, h]
  exact if_pos rfl

theorem load?_of_stepUntilZero {t : Tape} {position zero : Int64} {direction : Direction}
    {count : Nat} (h : t.stepUntilZero direction count position = .ok zero) :
    t.load? zero = some 0 := by
  induction count generalizing position with
  | zero => cases h
  | succ count ih =>
      rw [stepUntilZero] at h
      split at h
      · cases h
      · next value loaded =>
          split at h
          · next here =>
              cases h
              rw [loaded, here]
          · exact ih h

/-- A scan that finds no zero on the tape ends where the search leaves it. -/
theorem exists_scan_of_missed {t : Tape} {position : Int64} {direction : Direction}
    (onTape : t.OnTape position) (missed : ¬ t.ZeroAhead position direction) :
    ∃ outside, t.scan position direction = .ok outside ∧ ¬ t.OnTape outside ∧
      t.search position direction = t.search outside direction := by
  have le := t.len_le_usable
  have bound := t.usable_lt
  obtain ⟨index, value⟩ := Int.eq_ofNat_of_zero_le onTape.1
  have less : index < t.len := by
    have upper := onTape.2
    omega
  have found : t.index? position = some index := index?_eq_some_iff.mpr ⟨value, by omega⟩
  cases direction with
  | left =>
      have none : zeroDown t.cells index = none := by
        rw [zeroDown_eq_none_iff]
        intro i below zeroAt
        exact missed ⟨i, by omega, by omega, zeroAt⟩
      refine ⟨-1, ?_, fun on => absurd on.1 (by decide), ?_⟩
      · simp only [scan_left_eq, found, none, if_pos less]
      · simp only [search_eq, found, none, t.index?_neg_one]
  | right =>
      have none : zeroUp t.cells index (t.len - index) = none := by
        rw [zeroUp_eq_none_iff]
        intro i above below zeroAt
        exact missed ⟨i, by omega, by omega, zeroAt⟩
      refine ⟨Int64.ofNat t.len, ?_, ?_, ?_⟩
      · simp only [scan_right_eq, found, if_pos less, none]
      · rintro ⟨-, upper⟩
        rw [Int64.toInt_ofNat_of_lt (by omega)] at upper
        omega
      · rw [search_right found less, none]

theorem scan_bind_scan (t : Tape) (position : Int64) (direction : Direction) :
    (t.scan position direction >>= fun next => t.scan next direction) =
      t.search position direction := by
  by_cases covered : ¬ t.OnTape position ∨ t.ZeroAhead position direction
  · rw [scan_eq_search covered]
    cases searched : t.search position direction with
    | error fault => rfl
    | ok zero => exact scan_of_zero (load?_of_stepUntilZero searched) direction
  · obtain ⟨onTape, missed⟩ := not_or.mp covered
    obtain ⟨outside, first, off, same⟩ := exists_scan_of_missed (not_not.mp onTape) missed
    rw [first, same]
    exact scan_eq_search (Or.inl off)

end Tape

/-! ## The loop -/

namespace Block

def walk (direction : Direction) : Block := .loop (.act (.select direction.delta) .nil) .nil

def Means (b : Block) (m : Machine) : Except Int64 Machine → Prop
  | .ok m' => ∃ n, BigStep b m n m' .done
  | .error position => ∃ n m', BigStep b m n m' (.fault position)

theorem means_walk (m : Machine) (direction : Direction) :
    Means (walk direction) m (m.tape.search m.dp direction >>= fun dp => .ok { m with dp }) := by
  -- every turn of the loop leaves fewer cells ahead and the same end of the search
  induction ahead : m.tape.ahead m.dp direction using Nat.strongRecOn generalizing m with
  | ind count ih =>
      cases loaded : m.tape.load? m.dp with
      | none =>
          rw [Tape.search_of_none loaded]
          exact ⟨0, m, .testFault loaded⟩
      | some value =>
          by_cases zero : value = 0
          · subst zero
            rw [Tape.search_of_zero loaded]
            exact ⟨1, .loopExit loaded (.nil m)⟩
          · obtain ⟨same, fewer⟩ := Tape.search_of_nonzero loaded zero direction
            have turn : BigStep (.act (.select direction.delta) .nil) m 1
                { m with dp := m.dp + direction.delta } .done := .act rfl (.nil _)
            have again := ih _ (ahead ▸ fewer) { m with dp := m.dp + direction.delta } rfl
            rw [same]
            cases searched : m.tape.search (m.dp + direction.delta) direction with
            | ok dp =>
                rw [searched] at again
                obtain ⟨n, rest⟩ := again
                exact ⟨1 + n + 1, .loopTurn loaded zero turn rest⟩
            | error position =>
                rw [searched] at again
                obtain ⟨n, m', rest⟩ := again
                exact ⟨1 + n + 1, m', .loopTurn loaded zero turn rest⟩

/-- A scan in front of a block moves the data pointer and leaves the rest to the block. -/
theorem means_scan {direction : Direction} {rest : Block} (m : Machine)
    {after : Int64 → Except Int64 Machine}
    (h : ∀ dp, Means rest { m with dp } (after dp)) :
    Means (.act (.scan direction) rest) m (m.tape.scan m.dp direction >>= after) := by
  cases scanned : m.tape.scan m.dp direction with
  | error position =>
      have performed : m.perform (.scan direction) = (m, .fault position) := by
        simp only [Machine.perform, scanned]
      exact ⟨0, m, .actStuck performed (by simp)⟩
  | ok dp =>
      have performed : m.perform (.scan direction) = ({ m with dp }, .done) := by
        simp only [Machine.perform, scanned]
      have meaning := h dp
      change Means _ m (after dp)
      cases result : after dp with
      | ok m' =>
          rw [result] at meaning
          obtain ⟨n, later⟩ := meaning
          exact ⟨n + 1, .act performed later⟩
      | error position =>
          rw [result] at meaning
          obtain ⟨n, m', later⟩ := meaning
          exact ⟨n + 1, m', .act performed later⟩

end Block

/-- Running this code on `m` comes to `result`: the machine at the end of the program, or the
position of the fault that ends it. -/
def Yields (code : List Instr) (m : Machine) (result : Except Int64 Machine) : Prop :=
  ∃ p d, Program.ofCode code = .ok p ∧
    match result with
    | .ok m' => Debugger.Returns (.fresh p m) d .finished ∧ d.machine = m'
    | .error position => Debugger.Returns (.fresh p m) d (.fault position)

theorem Yields.unique {code : List Instr} {m : Machine} {left right : Except Int64 Machine}
    (first : Yields code m left) (second : Yields code m right) : left = right := by
  obtain ⟨p, d, accepted, ends⟩ := first
  obtain ⟨p', d', accepted', ends'⟩ := second
  cases accepted.symm.trans accepted'
  cases left with
  | ok m' =>
      cases right with
      | ok m'' =>
          obtain ⟨rfl, -⟩ := ends.1.unique ends'.1
          rw [← ends.2, ← ends'.2]
      | error position => cases (ends.1.unique ends').2
  | error position =>
      cases right with
      | ok m'' => cases (ends.unique ends'.1).2
      | error position' =>
          cases (ends.unique ends').2
          rfl

theorem Block.Means.yields {b : Block} {m : Machine} {result : Except Int64 Machine}
    (h : b.Means m result) (r : Except Int64 Machine) : Yields b.flatten m r ↔ r = result := by
  have here : Yields b.flatten m result := by
    refine ⟨b.program, ?_⟩
    cases result with
    | ok m' =>
        obtain ⟨n, meaning⟩ := h
        obtain ⟨d, executed, machine⟩ := meaning.executes
        exact ⟨d, b.ofCode_flatten, executed.returns rfl, machine⟩
    | error position =>
        obtain ⟨n, m', meaning⟩ := h
        obtain ⟨d, executed, -⟩ := meaning.executes
        exact ⟨d, b.ofCode_flatten, executed.returns rfl⟩
  constructor
  · intro other
    exact other.unique here
  · rintro rfl
    exact here

/-- A loop that moves by one cell until it is at a zero always comes to an end, and two scans in a
row come to the same.  One scan does already if it starts off the tape, or if there is a zero ahead
of it on the tape. -/
theorem loop_eq_two_scans (m : Machine) (direction : Direction) :
    ∃ result,
      (∀ r, Yields [.loopOpen, .act (.select direction.delta), .loopClose] m r ↔ r = result) ∧
      (∀ r, Yields [.act (.scan direction), .act (.scan direction)] m r ↔ r = result) ∧
      (¬ m.tape.OnTape m.dp ∨ m.tape.ZeroAhead m.dp direction →
        ∀ r, Yields [.act (.scan direction)] m r ↔ r = result) := by
  have moved : ∀ dp, Block.nil.Means { m with dp } (.ok { m with dp }) :=
    fun dp => ⟨0, .nil _⟩
  have once : Block.Means (.act (.scan direction) .nil) m
      (m.tape.scan m.dp direction >>= fun dp => .ok { m with dp }) :=
    Block.means_scan m moved
  have twice : Block.Means (.act (.scan direction) (.act (.scan direction) .nil)) m
      (m.tape.scan m.dp direction >>= fun dp =>
        m.tape.scan dp direction >>= fun dp => .ok { m with dp }) :=
    Block.means_scan m fun dp => Block.means_scan { m with dp } moved
  refine ⟨m.tape.search m.dp direction >>= fun dp => .ok { m with dp },
    (Block.means_walk m direction).yields, ?_, ?_⟩
  · rw [← m.tape.scan_bind_scan m.dp direction, bind_assoc]
    exact twice.yields
  · intro covered
    rw [← Tape.scan_eq_search covered]
    exact once.yields

end FencedTape
