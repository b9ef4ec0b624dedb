import FencedTape.Proofs.Breakpoints
import FencedTape.Proofs.Scan

/-! # Programs on a larger tape

A program that stays on its tape cannot tell how long the tape is.  Only scans depend on the
length: one that finds no zero ends just behind the tape, which on a larger one is a zero that it
finds.  So the cells behind the tape have to be zero (`Tape.Clear`), and they stay zero as long as
the program accesses none of them.

`m.on u` is the machine `m` with its cells on a tape of the sizes of `u`.  An action whose accesses
are on the tape does the same on both (`perform_on`), and so does an instruction (`step_on`); hence
whole executions do (`Carries.on`). -/

set_option autoImplicit false

namespace FencedTape

namespace Tape

def Clear (t : Tape) : Prop := ∀ i, t.len ≤ i → t.cells.get i = 0

instance onTapeDecidable (t : Tape) (position : Int64) : Decidable (t.OnTape position) :=
  inferInstanceAs (Decidable (_ ∧ _))

/-- The same cells on a tape of the sizes of `u`. -/
def on (t u : Tape) : Tape := { u with cells := t.cells }

@[simp] theorem len_on (t u : Tape) : (t.on u).len = u.len := rfl

@[simp] theorem usable_on (t u : Tape) : (t.on u).usable = u.usable := rfl

@[simp] theorem cells_on (t u : Tape) : (t.on u).cells = t.cells := rfl

theorem exists_index?_of_onTape {t : Tape} {position : Int64} (h : t.OnTape position) :
    ∃ index < t.len, ∀ u : Tape, t.len ≤ u.len → (t.on u).index? position = some index := by
  obtain ⟨index, value⟩ := Int.eq_ofNat_of_zero_le h.1
  have less : index < t.len := by
    have upper := h.2
    omega
  refine ⟨index, less, ?_⟩
  intro u le
  have usable := u.len_le_usable
  exact index?_eq_some_iff.mpr ⟨value, by simp only [usable_on]; omega⟩

theorem load?_on {t u : Tape} {position : Int64} (le : t.len ≤ u.len)
    (inside : t.OnTape position) : (t.on u).load? position = t.load? position := by
  obtain ⟨index, -, found⟩ := exists_index?_of_onTape inside
  have own : t.index? position = some index := found t (Nat.le_refl _)
  rw [load?, load?, found u le, own]
  rfl

theorem store?_on {t u : Tape} {position : Int64} (le : t.len ≤ u.len)
    (inside : t.OnTape position) (value : UInt8) :
    ∃ t', t.store? position value = some t' ∧
      (t.on u).store? position value = some (t'.on u) := by
  obtain ⟨index, -, found⟩ := exists_index?_of_onTape inside
  have own : t.index? position = some index := found t (Nat.le_refl _)
  refine ⟨t.setCell index value, ?_, ?_⟩
  · rw [store?, own, Option.map_some]
  · rw [store?, found u le, Option.map_some]
    rfl

theorem Clear.store? {t t' : Tape} {position : Int64} {value : UInt8} (clear : t.Clear)
    (inside : t.OnTape position) (stored : t.store? position value = some t') : t'.Clear := by
  obtain ⟨index, found, rfl⟩ := Option.map_eq_some_iff.mp stored
  have less := (onTape_iff found).mp inside
  intro i behind
  have other : index ≠ i := by
    have le : t.len ≤ i := behind
    omega
  rw [setCell, Memory.get_set, if_neg other]
  exact clear i behind

/-- A scan that leaves the tape ends where a larger tape has its first zero. -/
theorem scan_on {t u : Tape} {position : Int64} (le : t.len ≤ u.len) (clear : t.Clear)
    (inside : t.OnTape position) (direction : Direction) :
    (t.on u).scan position direction = t.scan position direction := by
  obtain ⟨index, less, found⟩ := exists_index?_of_onTape inside
  have own : t.index? position = some index := found t (Nat.le_refl _)
  have wide : index < (t.on u).len := Nat.lt_of_lt_of_le less le
  cases direction with
  | left => simp only [scan_left_eq, found u le, own, if_pos wide, if_pos less, cells_on]
  | right =>
      have split : u.len - index = (t.len - index) + (u.len - t.len) := by omega
      have behind : index + (t.len - index) = t.len := by omega
      simp only [scan_right_eq, found u le, own, if_pos wide, if_pos less, cells_on]
      rw [len_on, split, zeroUp_add, behind]
      cases searched : zeroUp t.cells index (t.len - index) with
      | some found => rfl
      | none =>
          cases more : u.len - t.len with
          | zero =>
              have same : u.len = t.len := by omega
              rw [same]
              rfl
          | succ count =>
              have zero : t.cells.get t.len = 0 := clear t.len (Nat.le_refl _)
              rw [zeroUp, if_pos zero]
              rfl

end Tape

namespace Machine

def on (m : Machine) (u : Tape) : Machine := { m with tape := m.tape.on u }

def readStores (m : Machine) : Bool :=
  match m.source.receive.1, m.atEnd with
  | .byte _, _ | .ended, .sentinel _ => true
  | .ended, .unchanged | .failed _, _ => false

/-- The positions that an action accesses.  Of the cells that a scan looks at it is the first. -/
def accesses (m : Machine) : Action → List Int64
  | .adjust offset _ | .write offset | .set offset _ => [m.dp + offset]
  | .select _ => []
  | .read offset => if m.readStores then [m.dp + offset] else []
  | .multiplyAdd offset _ => [m.dp, m.dp + offset]
  | .scan _ => [m.dp]

theorem store_on {m : Machine} {u : Tape} {position : Int64} (le : m.tape.len ≤ u.len)
    (clear : m.tape.Clear) (inside : m.tape.OnTape position) (value : UInt8) :
    (m.on u).store position value =
        ((m.store position value).1.on u, (m.store position value).2) ∧
      (m.store position value).1.tape.Clear := by
  obtain ⟨tape, stored, storedOn⟩ := Tape.store?_on le inside value
  have storedOn' : (m.on u).tape.store? position value = some (tape.on u) := storedOn
  simp only [store, stored, storedOn']
  exact ⟨rfl, clear.store? inside stored⟩

theorem update_on {m : Machine} {u : Tape} {position : Int64} (le : m.tape.len ≤ u.len)
    (clear : m.tape.Clear) (inside : m.tape.OnTape position) (f : UInt8 → UInt8) :
    (m.on u).update position f =
        ((m.update position f).1.on u, (m.update position f).2) ∧
      (m.update position f).1.tape.Clear := by
  have loaded : (m.on u).tape.load? position = m.tape.load? position := Tape.load?_on le inside
  simp only [update, loaded]
  split
  · exact store_on le clear inside _
  · exact ⟨rfl, clear⟩

theorem read_on {m : Machine} {u : Tape} {position : Int64} (le : m.tape.len ≤ u.len)
    (clear : m.tape.Clear) (inside : m.readStores = true → m.tape.OnTape position) :
    (m.on u).read position = ((m.read position).1.on u, (m.read position).2) ∧
      (m.read position).1.tape.Clear := by
  obtain ⟨tape, dp, atEnd, source, sink⟩ := m
  rcases received : source.receive with ⟨r, rest⟩
  simp only [readStores, received] at inside
  simp only [read, on, received]
  cases r with
  | byte value => exact store_on (m := ⟨tape, dp, atEnd, rest, sink⟩) le clear (inside rfl) value
  | ended =>
      cases atEnd with
      | sentinel value =>
          exact store_on (m := ⟨tape, dp, _, rest, sink⟩) le clear (inside rfl) value
      | unchanged => exact ⟨rfl, clear⟩
  | failed e => exact ⟨rfl, clear⟩

theorem write_on {m : Machine} {u : Tape} {position : Int64} (le : m.tape.len ≤ u.len)
    (clear : m.tape.Clear) (inside : m.tape.OnTape position) :
    (m.on u).write position = ((m.write position).1.on u, (m.write position).2) ∧
      (m.write position).1.tape.Clear := by
  have loaded : (m.on u).tape.load? position = m.tape.load? position := Tape.load?_on le inside
  have sink : (m.on u).sink = m.sink := rfl
  simp only [write, loaded, sink]
  split
  · exact ⟨rfl, clear⟩
  · split
    · exact ⟨rfl, clear⟩
    · exact ⟨rfl, clear⟩

theorem perform_on {m : Machine} {u : Tape} {action : Action} (le : m.tape.len ≤ u.len)
    (clear : m.tape.Clear) (inside : ∀ position ∈ m.accesses action, m.tape.OnTape position) :
    (m.on u).perform action = ((m.perform action).1.on u, (m.perform action).2) ∧
      (m.perform action).1.tape.Clear := by
  cases action with
  | adjust offset delta =>
      have cell : m.tape.OnTape (m.dp + offset) := inside _ (by simp [accesses])
      exact update_on le clear cell _
  | select delta => exact ⟨rfl, clear⟩
  | read offset =>
      have cell : m.readStores = true → m.tape.OnTape (m.dp + offset) := by
        intro stores
        exact inside _ (by simp [accesses, stores])
      exact read_on le clear cell
  | write offset =>
      have cell : m.tape.OnTape (m.dp + offset) := inside _ (by simp [accesses])
      exact write_on le clear cell
  | set offset value =>
      have cell : m.tape.OnTape (m.dp + offset) := inside _ (by simp [accesses])
      exact store_on le clear cell value
  | multiplyAdd offset factor =>
      have factorCell : m.tape.OnTape m.dp := inside _ (by simp [accesses])
      have cell : m.tape.OnTape (m.dp + offset) := inside _ (by simp [accesses])
      have loaded : (m.on u).tape.load? (m.on u).dp = m.tape.load? m.dp :=
        Tape.load?_on le factorCell
      simp only [perform, loaded]
      split
      · exact update_on le clear cell _
      · exact ⟨rfl, clear⟩
  | scan direction =>
      have cell : m.tape.OnTape m.dp := inside _ (by simp [accesses])
      have scanned : (m.on u).tape.scan (m.on u).dp direction = m.tape.scan m.dp direction :=
        Tape.scan_on le clear cell direction
      simp only [perform, scanned]
      split
      · exact ⟨rfl, clear⟩
      · exact ⟨rfl, clear⟩

end Machine

namespace Debugger

def on (d : Debugger) (u : Tape) : Debugger := { d with machine := d.machine.on u }

def accesses (d : Debugger) : List Int64 :=
  match d.program.get? d.ip with
  | none => []
  | some (.act action) => d.machine.accesses action
  | some .loopOpen | some .loopClose => [d.machine.dp]

def Stays (d : Debugger) : Prop := ∀ position ∈ d.accesses, d.machine.tape.OnTape position

instance staysDecidable (d : Debugger) : Decidable d.Stays :=
  List.decidableBAll d.machine.tape.OnTape d.accesses

theorem fixed_step (d : Debugger) : d.step.1.machine.fixed = d.machine.fixed := by
  cases fetched : d.program.get? d.ip with
  | none => rw [step, fetched]
  | some instr =>
      cases instr with
      | act action =>
          rw [(step_eq_perform fetched).1]
          exact d.machine.fixed_perform action
      | loopOpen => rw [step_of_loopOpen fetched, machine_branch]
      | loopClose => rw [step_of_loopClose fetched, machine_branch]

theorem len_step (d : Debugger) : d.step.1.machine.tape.len = d.machine.tape.len :=
  congrArg Prod.fst d.fixed_step

theorem branch_on {d : Debugger} {u : Tape} (le : d.machine.tape.len ≤ u.len)
    (inside : d.machine.tape.OnTape d.machine.dp) (ifZero ifNonzero : Nat) :
    (d.on u).branch ifZero ifNonzero =
      ((d.branch ifZero ifNonzero).1.on u, (d.branch ifZero ifNonzero).2) := by
  have loaded : (d.on u).machine.tape.load? (d.on u).machine.dp =
      d.machine.tape.load? d.machine.dp := Tape.load?_on le inside
  simp only [branch, loaded]
  split <;> rfl

theorem step_on {d : Debugger} {u : Tape} (le : d.machine.tape.len ≤ u.len)
    (clear : d.machine.tape.Clear) (stays : d.Stays) :
    (d.on u).step = (d.step.1.on u, d.step.2) ∧ d.step.1.machine.tape.Clear := by
  rw [Stays, accesses] at stays
  have tests : ∀ ifZero ifNonzero, d.machine.tape.OnTape d.machine.dp →
      d.step = d.branch ifZero ifNonzero → (d.on u).step = (d.on u).branch ifZero ifNonzero →
      (d.on u).step = (d.step.1.on u, d.step.2) ∧ d.step.1.machine.tape.Clear := by
    intro ifZero ifNonzero inside own other
    rw [own, other, machine_branch]
    exact ⟨branch_on le inside ifZero ifNonzero, clear⟩
  cases fetched : d.program.get? d.ip with
  | none =>
      have own : d.step = (d, .done) := by rw [step, fetched]
      have other : (d.on u).step = (d.on u, .done) := by
        have fetched' : (d.on u).program.get? (d.on u).ip = none := fetched
        rw [step, fetched']
      rw [own, other]
      exact ⟨rfl, clear⟩
  | some instr =>
      rw [fetched] at stays
      cases instr with
      | act action =>
          obtain ⟨performed, clear'⟩ := Machine.perform_on le clear stays
          rcases own : d.machine.perform action with ⟨machine, o⟩
          rw [own] at performed clear'
          by_cases done : o = .done
          · subst done
            rw [step_of_act fetched own, step_of_act (d := d.on u) fetched performed]
            exact ⟨rfl, clear'⟩
          · rw [step_of_act_stuck fetched own done,
              step_of_act_stuck (d := d.on u) fetched performed done]
            exact ⟨rfl, clear'⟩
      | loopOpen =>
          exact tests _ _ (stays _ (by simp)) (step_of_loopOpen fetched)
            (step_of_loopOpen (d := d.on u) fetched)
      | loopClose =>
          exact tests _ _ (stays _ (by simp)) (step_of_loopClose fetched)
            (step_of_loopClose (d := d.on u) fetched)

theorem Carries.len {n : Nat} {d e : Debugger} (h : Carries n d e) :
    e.machine.tape.len = d.machine.tape.len := by
  induction h with
  | refl d => rfl
  | @head n d e f _ step _ ih => rw [ih, ← d.len_step, step]

theorem Carries.on {n : Nat} {d e : Debugger} {u : Tape} (h : Carries n d e)
    (le : d.machine.tape.len ≤ u.len) (clear : d.machine.tape.Clear)
    (stays : ∀ i < n, (d.stepped i).Stays) :
    Carries n (d.on u) (e.on u) ∧ e.machine.tape.Clear := by
  induction h with
  | refl d => exact ⟨.refl _, clear⟩
  | @head n d e f live step rest ih =>
      obtain ⟨same, clear'⟩ := step_on le clear (stays 0 (Nat.zero_lt_succ n))
      rw [step] at same clear'
      have later : ∀ i < n, (e.stepped i).Stays := by
        intro i hi
        have next := stays (i + 1) (Nat.succ_lt_succ hi)
        rwa [stepped_succ, step] at next
      have len : e.machine.tape.len = d.machine.tape.len := by
        rw [← d.len_step, step]
      obtain ⟨carried, clear''⟩ := ih (len ▸ le) clear' later
      exact ⟨.head live same carried, clear''⟩

/-- If a program runs to its end on a tape without leaving it, and there are only zeros behind the
tape, then it runs to its end on every larger tape that holds the same cells, with the same output,
the same data pointer, in the same number of instructions and with the same input left.  The cells
of the smaller tape are the same in the end, and the others are still zero. -/
theorem larger_tape_changes_nothing (p : Program) (small large : Machine) (e : Debugger)
    (longer : small.tape.len ≤ large.tape.len)
    (alike : large = { small with tape := large.tape })
    (cells : ∀ i < small.tape.len, large.tape.cells.get i = small.tape.cells.get i)
    (zeros : ∀ i, small.tape.len ≤ i →
      small.tape.cells.get i = 0 ∧ large.tape.cells.get i = 0)
    (ends : Returns (fresh p small) e .finished)
    (stays : ∀ i < e.steps, ((fresh p small).stepped i).Stays) :
    ∃ f, Returns (fresh p large) f .finished ∧
      f.machine.sink = e.machine.sink ∧ f.machine.dp = e.machine.dp ∧ f.steps = e.steps ∧
      f.machine.source = e.machine.source ∧
      (∀ i < small.tape.len, f.machine.tape.cells.get i = e.machine.tape.cells.get i) ∧
      ∀ i, small.tape.len ≤ i → f.machine.tape.cells.get i = 0 := by
  have same : large = small.on large.tape := by
    have contents : large.tape.cells = small.tape.cells := by
      ext i
      by_cases inside : i < small.tape.len
      · rw [cells i inside]
      · obtain ⟨left, right⟩ := zeros i (Nat.le_of_not_lt inside)
        rw [left, right]
    rw [alike, Machine.on, Tape.on, ← contents]
  obtain ⟨n, executed⟩ := (returns_iff_executes (o := .done) rfl).mp ends
  have count : e.steps = n := executed.steps.trans (Nat.zero_add n)
  subst count
  obtain ⟨carried, ended⟩ := executed.carries
  obtain ⟨carriedOn, clear⟩ := carried.on longer (fun i behind => (zeros i behind).1) stays
  have executedOn : Executes (fresh p large) e.steps (e.on large.tape) .done := by
    have start : fresh p large = (fresh p small).on large.tape := congrArg (fresh p) same
    rw [start]
    exact carriedOn.executes (.finished ended)
  refine ⟨e.on large.tape, executedOn.returns rfl, rfl, rfl, rfl, rfl, fun _ _ => rfl, ?_⟩
  intro i behind
  exact clear i (carried.len ▸ behind)

/-- Moves past the only cell of a tape that has no other. -/
def leap : Program where
  code := #[.act (.set 0 1), .act (.scan .right)]
  jumps := #[0, 1]
  paired := rfl

def oneCell : Machine :=
  { idle with
    tape := { idle.tape with len := 1, len_le_usable := by decide }, atEnd := .sentinel 255 }

/-- Grants in pages of 4096 bytes all that a host may. -/
def generous : Host where
  pageSize := 4096
  reserve length := if length < 0x8000000000000000 then .ok 0x10000 else .error "too much"
  refusesProtect _ := none
  refusesRelease := none
  isPowerOfTwo_pageSize := Host.isPowerOfTwo_4096
  grants_lt length base granted := by
    split at granted
    · next small => exact UInt64.lt_iff_toNat_lt.mp small
    · cases granted

theorem leap_on_larger_tape :
    Machine.start generous { tapeSize := 1 } {} {} = .ok oneCell ∧
    ∃ large e f, Machine.start generous { tapeSize := 5000 } {} {} = .ok large ∧
      Returns (fresh leap oneCell) e .finished ∧ Returns (fresh leap large) f .finished ∧
      e.machine.dp = 1 ∧ f.machine.dp = e.machine.dp ∧ f.steps = 2 := by
  have ends : Returns (fresh leap oneCell) ((fresh leap oneCell).run 3).1 .finished :=
    ⟨by decide, 3, Prod.ext rfl (by decide)⟩
  have stays : ∀ i < 2, ((fresh leap oneCell).stepped i).Stays := by decide
  obtain ⟨f, finished, -, dp, steps, -⟩ := larger_tape_changes_nothing leap oneCell
    { oneCell with tape := .blank 5000 8192 (by decide) (by decide) } _ (by decide) rfl
    (fun _ _ => rfl) (fun i _ => ⟨Memory.get_zero i, Memory.get_zero i⟩) ends stays
  exact ⟨rfl, _, _, f, rfl, ends, finished, by decide, dp, steps⟩

end Debugger

end FencedTape
