import FencedTape.Proofs.Breakpoints
import FencedTape.Proofs.Scan

/-! # Loops that move a cell, and multiplications

A loop that adds a factor to each of some cells and takes one off the current cell turns as often as
the current cell says.  `Tape.scatter t dp count moves` adds `count` times its factor to the target
of every move; several moves may have one target.  The body of the loop is a scatter with count one,
and the one that it takes off is one more move, by the factor 255 to the current cell itself.

What a cell gets is the count times its share, the sum of the factors that go to it (`get_scatter`).
So scatters add up (`scatter_scatter`), and the loop is a single one whose count is the current cell
(`bigStep_moveLoop`).  The multiplications are the same scatter, as long as none of them changes the
current cell. -/

set_option autoImplicit false

namespace FencedTape

/-- What a cell at an offset gets for each unit of the current cell. -/
structure Move where
  offset : Int64
  factor : UInt8
  deriving DecidableEq, Repr

namespace Tape

def bump (t : Tape) (position : Int64) (amount : UInt8) : Tape :=
  match t.index? position with
  | none => t
  | some index => t.setCell index (t.cells.get index + amount)

def scatter (t : Tape) (dp : Int64) (count : UInt8) : List Move → Tape
  | [] => t
  | move :: moves => (t.bump (dp + move.offset) (count * move.factor)).scatter dp count moves

def share (t : Tape) (dp : Int64) (index : Nat) : List Move → UInt8
  | [] => 0
  | move :: moves =>
      (if t.index? (dp + move.offset) = some index then move.factor else 0) + t.share dp index moves

theorem ext_cells {t u : Tape} (len : t.len = u.len) (usable : t.usable = u.usable)
    (cells : ∀ index, t.cells.get index = u.cells.get index) : t = u := by
  obtain ⟨len, usable, cells, _, _⟩ := t
  obtain ⟨len', usable', cells', _, _⟩ := u
  cases len
  cases usable
  cases Memory.ext_get cells
  rfl

theorem sizes_bump (t : Tape) (position : Int64) (amount : UInt8) :
    (t.bump position amount).len = t.len ∧ (t.bump position amount).usable = t.usable := by
  rw [bump]
  split
  · exact ⟨rfl, rfl⟩
  · exact ⟨rfl, rfl⟩

theorem sizes_scatter (t : Tape) (dp : Int64) (count : UInt8) (moves : List Move) :
    (t.scatter dp count moves).len = t.len ∧ (t.scatter dp count moves).usable = t.usable := by
  induction moves generalizing t with
  | nil => exact ⟨rfl, rfl⟩
  | cons move moves ih =>
      obtain ⟨len, usable⟩ := t.sizes_bump (dp + move.offset) (count * move.factor)
      obtain ⟨len', usable'⟩ := ih (t.bump (dp + move.offset) (count * move.factor))
      exact ⟨len'.trans len, usable'.trans usable⟩

theorem index?_of_usable {t u : Tape} (same : t.usable = u.usable) (position : Int64) :
    t.index? position = u.index? position := by
  rw [index?, index?, same]

theorem share_of_usable {t u : Tape} (same : t.usable = u.usable) (dp : Int64) (index : Nat)
    (moves : List Move) : t.share dp index moves = u.share dp index moves := by
  induction moves with
  | nil => rfl
  | cons move moves ih => rw [share, share, ih, index?_of_usable same]

theorem get_bump (t : Tape) (position : Int64) (amount : UInt8) (index : Nat) :
    (t.bump position amount).cells.get index =
      t.cells.get index + if t.index? position = some index then amount else 0 := by
  rw [bump]
  split
  · next none => simp [none]
  · next found here =>
      rw [here, setCell, Memory.get_set]
      by_cases same : found = index
      · simp [same]
      · simp [same]

theorem get_scatter (t : Tape) (dp : Int64) (count : UInt8) (moves : List Move) (index : Nat) :
    (t.scatter dp count moves).cells.get index =
      t.cells.get index + count * t.share dp index moves := by
  induction moves generalizing t with
  | nil => simp [scatter, share]
  | cons move moves ih =>
      have usable := (t.sizes_bump (dp + move.offset) (count * move.factor)).2
      rw [scatter, ih, share_of_usable usable, get_bump, share]
      split
      · grind
      · grind

theorem scatter_zero (t : Tape) (dp : Int64) (moves : List Move) : t.scatter dp 0 moves = t := by
  obtain ⟨len, usable⟩ := t.sizes_scatter dp 0 moves
  apply ext_cells len usable
  intro index
  rw [get_scatter]
  grind

theorem scatter_scatter (t : Tape) (dp : Int64) (a b : UInt8) (moves : List Move) :
    (t.scatter dp a moves).scatter dp b moves = t.scatter dp (a + b) moves := by
  obtain ⟨len, usable⟩ := t.sizes_scatter dp a moves
  obtain ⟨len', usable'⟩ := (t.scatter dp a moves).sizes_scatter dp b moves
  obtain ⟨len'', usable''⟩ := t.sizes_scatter dp (a + b) moves
  apply ext_cells (by omega) (by omega)
  intro index
  rw [get_scatter, get_scatter, get_scatter, share_of_usable usable]
  grind

/-- What goes to other cells than the current one is no share of it. -/
theorem share_of_away {t : Tape} {dp : Int64} {index : Nat} (home : t.index? dp = some index)
    {moves : List Move} (away : ∀ move ∈ moves, move.offset ≠ 0) : t.share dp index moves = 0 := by
  induction moves with
  | nil => rfl
  | cons move moves ih =>
      have elsewhere : t.index? (dp + move.offset) ≠ some index := by
        intro there
        have same : dp + move.offset = dp := by
          rw [eq_ofNat_of_index? there, eq_ofNat_of_index? home]
        exact away move List.mem_cons_self (Int64.add_eq_left.mp same)
      rw [share, if_neg elsewhere, ih fun other mem => away other (List.mem_cons_of_mem move mem)]
      rfl

theorem share_append (t : Tape) (dp : Int64) (index : Nat) (moves more : List Move) :
    t.share dp index (moves ++ more) = t.share dp index moves + t.share dp index more := by
  induction moves with
  | nil => simp [share]
  | cons move moves ih =>
      rw [List.cons_append, share, share, ih]
      grind

theorem scatter_append (t : Tape) (dp : Int64) (count : UInt8) (moves more : List Move) :
    t.scatter dp count (moves ++ more) = (t.scatter dp count moves).scatter dp count more := by
  induction moves generalizing t with
  | nil => rfl
  | cons move moves ih => exact ih _

theorem load?_bump_of_ne {t : Tape} {position other : Int64} (ne : position ≠ other)
    (amount : UInt8) : (t.bump position amount).load? other = t.load? other := by
  rw [load?, load?, index?_of_usable (t.sizes_bump position amount).2]
  cases found : t.index? other with
  | none => rfl
  | some index =>
      have elsewhere : t.index? position ≠ some index := by
        intro there
        exact ne ((eq_ofNat_of_index? there).trans (eq_ofNat_of_index? found).symm)
      rw [Option.map_some, Option.map_some, get_bump, if_neg elsewhere, UInt8.add_zero]

theorem load?_scatter {t : Tape} {dp : Int64} {value : UInt8}
    (loaded : t.load? dp = some value) (count : UInt8) (moves : List Move) :
    ∃ index, t.index? dp = some index ∧ (t.scatter dp count moves).load? dp =
      some (value + count * t.share dp index moves) := by
  obtain ⟨index, home, rfl⟩ := Option.map_eq_some_iff.mp loaded
  refine ⟨index, home, ?_⟩
  rw [load?, index?_of_usable (t.sizes_scatter dp count moves).2, home, Option.map_some,
    get_scatter]

end Tape

/-! ## Actions -/

namespace Machine

theorem update_of_index? {m : Machine} {position : Int64} (inside : (m.tape.index? position).isSome)
    (amount : UInt8) :
    m.update position (· + amount) = ({ m with tape := m.tape.bump position amount }, .done) := by
  obtain ⟨index, found⟩ := Option.isSome_iff_exists.mp inside
  simp only [update, store, Tape.load?, Tape.store?, Tape.bump, found, Option.map_some]

theorem perform_multiplyAdd {m : Machine} {move : Move} {value : UInt8}
    (loaded : m.tape.load? m.dp = some value)
    (inside : (m.tape.index? (m.dp + move.offset)).isSome) :
    m.perform (.multiplyAdd move.offset move.factor) =
      ({ m with tape := m.tape.bump (m.dp + move.offset) (value * move.factor) }, .done) := by
  rw [perform, loaded]
  exact update_of_index? inside _

/-- Emptying a cell takes away what is in it, and 255 times a byte is the byte taken away. -/
theorem perform_set_zero {m : Machine} {value : UInt8} (loaded : m.tape.load? m.dp = some value) :
    m.perform (.set 0 0) =
      ({ m with tape := m.tape.bump (m.dp + 0) (value * 255) }, .done) := by
  obtain ⟨index, found, rfl⟩ := Option.map_eq_some_iff.mp loaded
  have empty : m.tape.cells.get index + m.tape.cells.get index * 255 = 0 := by grind
  rw [perform, Int64.add_zero]
  simp only [store, Tape.store?, Tape.bump, found, Option.map_some, empty]

end Machine

/-! ## The two programs -/

namespace Block

/-- Actions that each do their part of a scatter.  None of them has the current cell for a target,
so all find the same value in it. -/
theorem bigStep_acts {m m' : Machine} {value : UInt8} {moves : List Move}
    {act : Move → Action} {rest : Block} {n : Nat} {o : Outcome} (count : UInt8) (t : Tape)
    (loaded : t.load? m.dp = some value) (away : ∀ move ∈ moves, move.offset ≠ 0)
    (performs : ∀ u : Tape, u.usable = t.usable → u.load? m.dp = some value → ∀ move ∈ moves,
      ({ m with tape := u } : Machine).perform (act move) =
        ({ m with tape := u.bump (m.dp + move.offset) (count * move.factor) }, .done))
    (after : BigStep rest { m with tape := t.scatter m.dp count moves } n m' o) :
    BigStep (acts (moves.map act) rest) { m with tape := t } (n + moves.length) m' o := by
  induction moves generalizing t with
  | nil => exact after
  | cons move moves ih =>
      have first := performs t rfl loaded move List.mem_cons_self
      have elsewhere : m.dp + move.offset ≠ m.dp := by
        intro same
        exact away move List.mem_cons_self (Int64.add_eq_left.mp same)
      have usable := (t.sizes_bump (m.dp + move.offset) (count * move.factor)).2
      refine .act first (ih _ ?_ ?_ ?_ after)
      · rw [Tape.load?_bump_of_ne elsewhere]
        exact loaded
      · intro other mem
        exact away other (List.mem_cons_of_mem move mem)
      · intro u same home other mem
        exact performs u (same.trans usable) home other (List.mem_cons_of_mem move mem)

def takeOne : Move := ⟨0, 255⟩

/-- Adds to the target of every move and takes one off the current cell, until it is zero. -/
def moveLoop (moves : List Move) : Block :=
  .loop (acts (moves.map fun move => .adjust move.offset move.factor) (.act (.adjust 0 255) .nil))
    .nil

/-- Adds to the target of every move at once and empties the current cell. -/
def multiplyOut (moves : List Move) : Block :=
  acts (moves.map fun move => .multiplyAdd move.offset move.factor) (.act (.set 0 0) .nil)

theorem bigStep_multiplyOut {m : Machine} {value : UInt8} {moves : List Move}
    (loaded : m.tape.load? m.dp = some value) (away : ∀ move ∈ moves, move.offset ≠ 0)
    (reach : ∀ move ∈ moves, (m.tape.index? (m.dp + move.offset)).isSome) :
    BigStep (multiplyOut moves) m (1 + moves.length)
      { m with tape := m.tape.scatter m.dp value (moves ++ [takeOne]) } .done := by
  refine bigStep_acts value m.tape loaded away ?_ ?_
  · intro u same home move mem
    refine Machine.perform_multiplyAdd home ?_
    rw [Tape.index?_of_usable same]
    exact reach move mem
  · obtain ⟨index, home, kept⟩ := Tape.load?_scatter loaded value moves
    rw [Tape.share_of_away home away, UInt8.mul_zero, UInt8.add_zero] at kept
    rw [Tape.scatter_append]
    exact .act (Machine.perform_set_zero kept) (.nil _)

theorem bigStep_moveBody {m : Machine} {value : UInt8} {moves : List Move}
    (loaded : m.tape.load? m.dp = some value) (away : ∀ move ∈ moves, move.offset ≠ 0)
    (reach : ∀ move ∈ moves, (m.tape.index? (m.dp + move.offset)).isSome) :
    BigStep (acts (moves.map fun move => .adjust move.offset move.factor)
        (.act (.adjust 0 255) .nil)) m (1 + moves.length)
      { m with tape := m.tape.scatter m.dp 1 (moves ++ [takeOne]) } .done := by
  refine bigStep_acts 1 m.tape loaded away ?_ ?_
  · intro u same home move mem
    rw [UInt8.one_mul]
    refine Machine.update_of_index? ?_ _
    rw [Tape.index?_of_usable same]
    exact reach move mem
  · obtain ⟨index, home, -⟩ := Tape.load?_scatter loaded 1 moves
    rw [Tape.scatter_append]
    refine .act (Machine.update_of_index? ?_ 255) (.nil _)
    rw [Tape.index?_of_usable (m.tape.sizes_scatter m.dp 1 moves).2, Int64.add_zero, home]
    rfl

theorem share_takeOne {t : Tape} {dp : Int64} {index : Nat} {moves : List Move}
    (home : t.index? dp = some index) (away : ∀ move ∈ moves, move.offset ≠ 0) :
    t.share dp index (moves ++ [takeOne]) = 255 := by
  rw [Tape.share_append, Tape.share_of_away home away]
  simp only [Tape.share, takeOne, Int64.add_zero, home]
  rfl

theorem bigStep_moveLoop {m : Machine} {value : UInt8} {moves : List Move}
    (loaded : m.tape.load? m.dp = some value) (away : ∀ move ∈ moves, move.offset ≠ 0)
    (reach : ∀ move ∈ moves, (m.tape.index? (m.dp + move.offset)).isSome) :
    BigStep (moveLoop moves) m (1 + value.toNat * (moves.length + 2))
      { m with tape := m.tape.scatter m.dp value (moves ++ [takeOne]) } .done := by
  -- every turn takes one off the current cell, and its scatter is a part of the whole
  induction left : value.toNat generalizing m value with
  | zero =>
      cases UInt8.toNat_inj.mp (left.trans UInt8.toNat_zero.symm)
      rw [Tape.scatter_zero, Nat.zero_mul]
      exact .loopExit loaded (.nil m)
  | succ count ih =>
      have nonzero : value ≠ 0 := by
        rintro rfl
        cases left
      have turn := bigStep_moveBody loaded away reach
      obtain ⟨index, home, next⟩ := Tape.load?_scatter loaded 1 (moves ++ [takeOne])
      rw [share_takeOne home away, UInt8.one_mul] at next
      have fewer : (value + 255).toNat = count := by
        rw [UInt8.toNat_add, left]
        have bound := value.toNat_lt
        simp only [UInt8.toNat_ofNat]
        omega
      have usable := (m.tape.sizes_scatter m.dp 1 (moves ++ [takeOne])).2
      have reach' : ∀ move ∈ moves, ((m.tape.scatter m.dp 1 (moves ++ [takeOne])).index?
          (m.dp + move.offset)).isSome := by
        intro move mem
        rw [Tape.index?_of_usable usable]
        exact reach move mem
      have rest := ih (m := { m with tape := m.tape.scatter m.dp 1 (moves ++ [takeOne]) }) next
        reach' fewer
      have total : 1 + (value + 255) = value := by grind
      rw [Tape.scatter_scatter, total] at rest
      have whole := BigStep.loopTurn loaded nonzero turn rest
      have steps : 1 + moves.length + (1 + count * (moves.length + 2)) + 1 =
          1 + (count + 1) * (moves.length + 2) := by
        rw [Nat.succ_mul]
        omega
      rwa [steps] at whole

theorem flatten_moveLoop (moves : List Move) :
    (moveLoop moves).flatten =
      .loopOpen :: (moves.map (fun move => .act (.adjust move.offset move.factor)) ++
        [.act (.adjust 0 255), .loopClose]) := by
  simp [moveLoop, flatten, flatten_acts]

theorem flatten_multiplyOut (moves : List Move) :
    (multiplyOut moves).flatten =
      moves.map (fun move => .act (.multiplyAdd move.offset move.factor)) ++ [.act (.set 0 0)] := by
  simp [multiplyOut, flatten, flatten_acts]

end Block

/-- If the current cell and the targets of some moves can be accessed, and no target is the current
cell, then the loop that carries out the moves as often as the current cell says comes to its end
with the machine that a multiplication for each move leaves, once the current cell is emptied.  It
makes one test in front of the first turn, and every turn has the moves, the step down and a
test. -/
theorem move_loop_eq_multiplications (m : Machine) (moves : List Move) (value : UInt8)
    (loaded : m.tape.load? m.dp = some value) (away : ∀ move ∈ moves, move.offset ≠ 0)
    (reach : ∀ move ∈ moves, (m.tape.index? (m.dp + move.offset)).isSome) :
    ∃ p q d e,
      Program.ofCode (.loopOpen :: (moves.map (fun move =>
        .act (.adjust move.offset move.factor)) ++ [.act (.adjust 0 255), .loopClose])) = .ok p ∧
      Program.ofCode (moves.map (fun move => .act (.multiplyAdd move.offset move.factor)) ++
        [.act (.set 0 0)]) = .ok q ∧
      (∀ f progress, Debugger.Returns (.fresh p m) f progress ↔ f = d ∧ progress = .finished) ∧
      (∀ f progress, Debugger.Returns (.fresh q m) f progress ↔ f = e ∧ progress = .finished) ∧
      d.machine = e.machine ∧ d.machine.dp = m.dp ∧
      d.steps = 1 + value.toNat * (moves.length + 2) := by
  obtain ⟨d, machine, steps, loop⟩ := (Block.bigStep_moveLoop loaded away reach).returns
  obtain ⟨e, machine', -, straight⟩ := (Block.bigStep_multiplyOut loaded away reach).returns
  refine ⟨(Block.moveLoop moves).program, (Block.multiplyOut moves).program, d, e, ?_, ?_, loop,
    straight, machine.trans machine'.symm, by rw [machine], steps⟩
  · rw [← Block.flatten_moveLoop]
    exact Block.ofCode_flatten _
  · rw [← Block.flatten_multiplyOut]
    exact Block.ofCode_flatten _

theorem multiplications_of_three :
    ∃ p q d e,
      Program.ofCode [.loopOpen, .act (.adjust 1 200), .act (.adjust (-1) 7),
        .act (.adjust 1 100), .act (.adjust 0 255), .loopClose] = .ok p ∧
      Program.ofCode [.act (.multiplyAdd 1 200), .act (.multiplyAdd (-1) 7),
        .act (.multiplyAdd 1 100), .act (.set 0 0)] = .ok q ∧
      Debugger.Returns (.fresh p { Debugger.idle with
        tape := Debugger.idle.tape.setCell 1 3, dp := 1 }) d .finished ∧
      Debugger.Returns (.fresh q { Debugger.idle with
        tape := Debugger.idle.tape.setCell 1 3, dp := 1 }) e .finished ∧
      d.machine = e.machine ∧ d.steps = 16 := by
  obtain ⟨p, q, d, e, accepted, accepted', loop, straight, same, -, steps⟩ :=
    move_loop_eq_multiplications
      { Debugger.idle with tape := Debugger.idle.tape.setCell 1 3, dp := 1 }
      [⟨1, 200⟩, ⟨-1, 7⟩, ⟨1, 100⟩] 3 (by decide) (by decide) (by decide)
  exact ⟨p, q, d, e, accepted, accepted', (loop _ _).mpr ⟨rfl, rfl⟩,
    (straight _ _).mpr ⟨rfl, rfl⟩, same, steps⟩

end FencedTape
