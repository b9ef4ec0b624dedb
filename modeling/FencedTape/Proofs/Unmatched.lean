import FencedTape.Proofs.Pairing
import Mathlib.Order.Bounds.Basic

/-! # Which loop end has no partner

The nesting of code is the number of its loop starts less that of its loop ends.  Code is rejected
for an end if some prefix of it has a negative nesting, and the end reported is the last instruction
of the shortest such prefix.  Otherwise it is rejected for a start if the nesting never again comes
down to what it was before that start, and the last such start is reported.

`Unclosed code waiting` cuts code at the starts that wait for their ends: what stands between them
is balanced.  The pass that builds the jump table keeps this of the code that it has passed
(`explains_of_extendTable`), and the nesting of every prefix can be read off the cuts. -/

set_option autoImplicit false

namespace FencedTape

def nesting (code : List Instr) : Int := code.count .loopOpen - code.count .loopClose

/-- No later prefix of the code has the nesting again that it had before this start of a loop. -/
def LeftOpen (code : List Instr) (address : Nat) : Prop :=
  code[address]? = some .loopOpen ∧
    ∀ n, address < n → n ≤ code.length → nesting (code.take n) ≠ nesting (code.take address)

/-- The loops that start at the addresses `waiting`, the innermost first, have not been closed. -/
inductive Unclosed : List Instr → (waiting : List Nat) → Prop
  | balanced (b : Block) : Unclosed b.flatten []
  | within {before : List Instr} {waiting : List Nat} (outer : Unclosed before waiting)
      (b : Block) : Unclosed (before ++ .loopOpen :: b.flatten) (before.length :: waiting)

/-! ## Nesting -/

@[simp] theorem nesting_nil : nesting [] = 0 := rfl

@[simp] theorem nesting_append (first rest : List Instr) :
    nesting (first ++ rest) = nesting first + nesting rest := by
  simp only [nesting, List.count_append]
  omega

@[simp] theorem nesting_act (action : Action) (code : List Instr) :
    nesting (.act action :: code) = nesting code := by
  simp [nesting]

@[simp] theorem nesting_loopOpen (code : List Instr) :
    nesting (.loopOpen :: code) = nesting code + 1 := by
  have ends : (Instr.loopOpen :: code).count .loopClose = code.count .loopClose :=
    List.count_cons_of_ne (by decide)
  rw [nesting, nesting, List.count_cons_self, ends]
  omega

@[simp] theorem nesting_loopClose (code : List Instr) :
    nesting (.loopClose :: code) = nesting code - 1 := by
  have starts : (Instr.loopClose :: code).count .loopOpen = code.count .loopOpen :=
    List.count_cons_of_ne (by decide)
  rw [nesting, nesting, List.count_cons_self, starts]
  omega

@[simp] theorem nesting_flatten (b : Block) : nesting b.flatten = 0 := by
  induction b with
  | nil => rfl
  | act action rest ih => simpa [Block.flatten] using ih
  | loop body rest ihBody ihRest =>
      simp only [Block.flatten, nesting_loopOpen, nesting_append, nesting_loopClose, ihBody, ihRest]
      omega

theorem nesting_take_flatten (b : Block) (n : Nat) : 0 ≤ nesting (b.flatten.take n) := by
  induction b generalizing n with
  | nil => simp [Block.flatten]
  | act action rest ih =>
      cases n with
      | zero => simp
      | succ n => simpa [Block.flatten] using ih n
  | loop body rest ihBody ihRest =>
      cases n with
      | zero => simp
      | succ n =>
          have inner := ihBody n
          rw [Block.flatten, List.take_succ_cons, nesting_loopOpen, List.take_append,
            nesting_append]
          cases left : n - body.flatten.length with
          | zero =>
              rw [List.take_zero, nesting_nil]
              omega
          | succ k =>
              have whole : body.flatten.take n = body.flatten :=
                List.take_of_length_le (by omega)
              have later := ihRest k
              rw [whole, nesting_flatten, List.take_succ_cons, nesting_loopClose]
              omega

theorem nesting_take_of_le {first : List Instr} {n : Nat} (le : n ≤ first.length)
    (rest : List Instr) : nesting ((first ++ rest).take n) = nesting (first.take n) := by
  rw [List.take_append_of_le_length le]

theorem nesting_take_append (first rest : List Instr) (n : Nat) :
    nesting ((first ++ rest).take (first.length + n)) = nesting first + nesting (rest.take n) := by
  rw [List.take_append, List.take_of_length_le (Nat.le_add_right _ _), Nat.add_sub_cancel_left,
    nesting_append]

/-- Behind the end of a loop the nesting is what it was before the loop. -/
theorem Encloses.nesting_take {code : List Instr} {first last : Nat}
    (h : Encloses code first last) :
    nesting (code.take (last + 1)) = nesting (code.take first) := by
  obtain ⟨before, after, body, rfl, rfl, rfl⟩ := encloses_iff.mp h
  have loop : (Instr.loopOpen :: (body.flatten ++ .loopClose :: after)).take (body.size + 2) =
      .loopOpen :: (body.flatten ++ [.loopClose]) := by
    rw [← body.length_flatten, List.take_succ_cons, List.take_length_add_append]
    rfl
  have start := nesting_take_append before (.loopOpen :: (body.flatten ++ .loopClose :: after)) 0
  have stop := nesting_take_append before (.loopOpen :: (body.flatten ++ .loopClose :: after))
    (body.size + 2)
  rw [loop] at stop
  simp only [nesting_loopOpen, nesting_append, nesting_flatten, nesting_loopClose,
    nesting_nil] at stop
  simp only [Nat.add_zero, List.take_zero, nesting_nil] at start
  rw [start, Nat.add_assoc, Nat.add_assoc, stop]
  omega

theorem not_leftOpen_of_encloses {code : List Instr} {first last : Nat}
    (h : Encloses code first last) : ¬ LeftOpen code first := by
  intro leftOpen
  have less := h.less
  have bound := (List.getElem?_eq_some_iff.mp h.closes).1
  exact leftOpen.2 (last + 1) (by omega) bound h.nesting_take

theorem Balanced.not_leftOpen {code : List Instr} (h : Balanced code) (address : Nat) :
    ¬ LeftOpen code address := by
  intro leftOpen
  obtain ⟨last, encloses⟩ := exists_end h leftOpen.1
  exact not_leftOpen_of_encloses encloses leftOpen

/-! ## One instruction after the other -/

/-- One block and then another. -/
def Block.append : Block → Block → Block
  | .nil, c => c
  | .act action rest, c => .act action (rest.append c)
  | .loop body rest, c => .loop body (rest.append c)

theorem Block.flatten_append (b c : Block) : (b.append c).flatten = b.flatten ++ c.flatten := by
  induction b with
  | nil => rfl
  | act action rest ih => simp [append, flatten, ih]
  | loop body rest _ ih => simp [append, flatten, ih]

theorem Unclosed.append {code : List Instr} {waiting : List Nat} (h : Unclosed code waiting)
    (c : Block) : Unclosed (code ++ c.flatten) waiting := by
  cases h with
  | balanced b =>
      rw [← Block.flatten_append]
      exact .balanced _
  | within outer b =>
      rw [List.append_assoc, List.cons_append, ← Block.flatten_append]
      exact .within outer _

theorem Unclosed.act {code : List Instr} {waiting : List Nat} (h : Unclosed code waiting)
    (action : Action) : Unclosed (code ++ [.act action]) waiting :=
  h.append (.act action .nil)

theorem Unclosed.loopOpen {code : List Instr} {waiting : List Nat} (h : Unclosed code waiting) :
    Unclosed (code ++ [.loopOpen]) (code.length :: waiting) :=
  .within h .nil

theorem Unclosed.loopClose {code : List Instr} {address : Nat} {waiting : List Nat}
    (h : Unclosed code (address :: waiting)) : Unclosed (code ++ [.loopClose]) waiting := by
  cases h with
  | within outer b =>
      have closed := outer.append (.loop b .nil)
      simpa [Block.flatten] using closed

/-- What an error says about code: a start is the innermost one that waits, an end follows upon
balanced code. -/
def LoopError.Explains (code : List Instr) : LoopError → Prop
  | .unmatchedOpen address => ∃ waiting, Unclosed code (address :: waiting)
  | .unmatchedClose address =>
      ∃ b : Block, ∃ rest, code = b.flatten ++ .loopClose :: rest ∧ b.size = address

theorem explains_of_extendTable {passed code : List Instr} {waiting : List Nat}
    {table : Array Nat} {e : LoopError} (h : Program.extendTable code waiting table = .error e)
    (size : table.size = passed.length) (unclosed : Unclosed passed waiting) :
    e.Explains (passed ++ code) := by
  -- the loops that wait on the stack are those that the code passed so far has not closed
  fun_induction Program.extendTable code waiting table generalizing passed with
  | case1 table => cases h
  | case2 address waiting table =>
      cases h
      rw [List.append_nil]
      exact ⟨_, unclosed⟩
  | case3 action code waiting table ih =>
      have next := ih h (by simp [size]) (unclosed.act action)
      rwa [List.append_assoc] at next
  | case4 code waiting table ih =>
      rw [size] at ih h
      have next := ih h (by simp [size]) unclosed.loopOpen
      rwa [List.append_assoc] at next
  | case5 code table =>
      cases h
      cases unclosed with
      | balanced b =>
          rw [b.length_flatten] at size
          exact ⟨b, code, rfl, size.symm⟩
  | case6 code address waiting table ih =>
      have next := ih h (by simp [size]) unclosed.loopClose
      rwa [List.append_assoc] at next

theorem explains_of_ofCode {code : List Instr} {e : LoopError}
    (h : Program.ofCode code = .error e) : e.Explains code := by
  have rejected := Program.ofCode_eq_error_iff.mp h
  have nothing : Unclosed [] [] := .balanced .nil
  exact explains_of_extendTable rejected rfl nothing

/-! ## What is reported -/

theorem isLeast_of_loopClose (b : Block) (rest : List Instr) :
    IsLeast {n | nesting ((b.flatten ++ .loopClose :: rest).take n) < 0} (b.size + 1) := by
  constructor
  · have here := nesting_take_append b.flatten (.loopClose :: rest) 1
    rw [b.length_flatten] at here
    simp [here]
  · intro n negative
    by_contra shorter
    have inside : n ≤ b.flatten.length := by
      rw [b.length_flatten]
      omega
    have nonneg := nesting_take_flatten b n
    change nesting _ < 0 at negative
    rw [nesting_take_of_le inside] at negative
    omega

theorem Unclosed.nesting_take {code : List Instr} {waiting : List Nat} (h : Unclosed code waiting)
    (n : Nat) : 0 ≤ nesting (code.take n) := by
  induction h generalizing n with
  | balanced b => exact nesting_take_flatten b n
  | @within before waiting outer b ih =>
      by_cases inside : n ≤ before.length
      · rw [nesting_take_of_le inside]
        exact ih n
      · obtain ⟨k, rfl⟩ := Nat.exists_eq_add_of_lt (Nat.lt_of_not_le inside)
        have whole := ih before.length
        have inner := nesting_take_flatten b k
        rw [Nat.add_assoc, nesting_take_append, List.take_succ_cons, nesting_loopOpen]
        rw [List.take_length] at whole
        omega

theorem leftOpen_within (before : List Instr) (b : Block) :
    LeftOpen (before ++ .loopOpen :: b.flatten) before.length := by
  refine ⟨by simp, ?_⟩
  intro n later _
  obtain ⟨k, rfl⟩ := Nat.exists_eq_add_of_lt later
  have inner := nesting_take_flatten b k
  rw [Nat.add_assoc, nesting_take_append, List.take_succ_cons, nesting_loopOpen,
    nesting_take_of_le (Nat.le_refl _), List.take_length]
  omega

/-- A start behind the last one that waits is inside a balanced part, so it has its end. -/
theorem isGreatest_leftOpen (before : List Instr) (b : Block) :
    IsGreatest {address | LeftOpen (before ++ .loopOpen :: b.flatten) address} before.length := by
  constructor
  · exact leftOpen_within before b
  · intro address leftOpen
    by_contra later
    obtain ⟨k, rfl⟩ := Nat.exists_eq_add_of_lt (Nat.lt_of_not_le later)
    have opens := leftOpen.1
    rw [Nat.add_assoc, List.getElem?_append_right (Nat.le_add_right _ _), Nat.add_sub_cancel_left,
      List.getElem?_cons_succ] at opens
    obtain ⟨last, encloses⟩ := exists_end (balanced_flatten b) opens
    have placed := encloses.within (before ++ [.loopOpen]) []
    rw [List.append_nil, List.append_assoc, List.length_append, List.length_singleton] at placed
    rw [Nat.add_right_comm] at leftOpen
    exact not_leftOpen_of_encloses placed leftOpen

theorem isLeast_of_unmatchedClose {code : List Instr} {address : Nat}
    (h : Program.ofCode code = .error (.unmatchedClose address)) :
    IsLeast {n | nesting (code.take n) < 0} (address + 1) := by
  obtain ⟨b, rest, rfl, rfl⟩ := explains_of_ofCode h
  exact isLeast_of_loopClose b rest

theorem isGreatest_of_unmatchedOpen {code : List Instr} {address : Nat}
    (h : Program.ofCode code = .error (.unmatchedOpen address)) :
    (∀ n, 0 ≤ nesting (code.take n)) ∧ IsGreatest {start | LeftOpen code start} address := by
  obtain ⟨waiting, unclosed⟩ := explains_of_ofCode h
  refine ⟨unclosed.nesting_take, ?_⟩
  cases unclosed with
  | within outer b => exact isGreatest_leftOpen _ b

theorem balanced_or_rejected (code : List Instr) :
    Balanced code ∨ (∃ address, Program.ofCode code = .error (.unmatchedClose address)) ∨
      ∃ address, Program.ofCode code = .error (.unmatchedOpen address) := by
  cases verdict : Program.ofCode code with
  | ok p => exact Or.inl (exists_ofCode_iff.mp ⟨p, verdict⟩)
  | error e =>
      cases e with
      | unmatchedOpen address => exact Or.inr (Or.inr ⟨address, rfl⟩)
      | unmatchedClose address => exact Or.inr (Or.inl ⟨address, rfl⟩)

theorem exists_unmatchedClose_iff {code : List Instr} :
    (∃ address, Program.ofCode code = .error (.unmatchedClose address)) ↔
      ∃ n, nesting (code.take n) < 0 := by
  constructor
  · intro ⟨address, rejected⟩
    exact ⟨address + 1, (isLeast_of_unmatchedClose rejected).1⟩
  · intro ⟨n, negative⟩
    rcases balanced_or_rejected code with ⟨b, rfl⟩ | rejected | ⟨address, rejected⟩
    · exact absurd (nesting_take_flatten b n) (Int.not_le.mpr negative)
    · exact rejected
    · have nonneg := (isGreatest_of_unmatchedOpen rejected).1 n
      exact absurd nonneg (Int.not_le.mpr negative)

/-- Code is rejected for the end at which the nesting of a prefix first becomes negative.  If there
is none it is rejected for the last start that is left open. -/
theorem rejected_for_unmatched (code : List Instr) :
    ((∃ address, Program.ofCode code = .error (.unmatchedClose address)) ↔
      ∃ n, nesting (code.take n) < 0) ∧
    (∀ address, Program.ofCode code = .error (.unmatchedClose address) ↔
      IsLeast {n | nesting (code.take n) < 0} (address + 1)) ∧
    (∀ address, Program.ofCode code = .error (.unmatchedOpen address) ↔
      (∀ n, 0 ≤ nesting (code.take n)) ∧ IsGreatest {start | LeftOpen code start} address) := by
  refine ⟨exists_unmatchedClose_iff, ?_, ?_⟩
  · intro address
    refine ⟨isLeast_of_unmatchedClose, ?_⟩
    intro least
    obtain ⟨other, rejected⟩ := exists_unmatchedClose_iff.mpr ⟨_, least.1⟩
    have same := (isLeast_of_unmatchedClose rejected).unique least
    obtain rfl : other = address := by omega
    exact rejected
  · intro address
    refine ⟨isGreatest_of_unmatchedOpen, ?_⟩
    intro ⟨nonneg, greatest⟩
    rcases balanced_or_rejected code with balanced | ⟨other, rejected⟩ | ⟨other, rejected⟩
    · exact absurd greatest.1 (balanced.not_leftOpen address)
    · have negative := (isLeast_of_unmatchedClose rejected).1
      exact absurd (nonneg (other + 1)) (Int.not_le.mpr negative)
    · have same := (isGreatest_of_unmatchedOpen rejected).2.unique greatest
      rwa [same] at rejected

end FencedTape
