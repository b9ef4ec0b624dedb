import FencedTape.Proofs.Composition
import FencedTape.Proofs.RoundTrip
import FencedTape.Proofs.Unmatched
import Mathlib.Data.Finset.Card
import Mathlib.Data.Finset.Lattice.Fold
import Mathlib.Order.Lattice.Nat

/-! # How deep loops nest

A loop is around an instruction if the instruction is strictly between its two ends, which the jump
table tells (`Program.enclosing`).  Listings are indented, and the deepest nesting is found, by
counting loops that start and end in passing.  The first count would stop at zero and the second go
below it (`Program.levelAt`, `Program.depthAt`), but neither gets there, since no end comes too
early (`cast_levelAt`).  So all three agree.

Both counts are the nesting of the code passed.  Among the loops that have started in a prefix,
those that have also ended are paired with the ends in it, so that the nesting counts the others
(`card_unended`).  These are the loops around the instruction that follows, and the one that it ends
if it is an end (`card_enclosing`). -/

set_option autoImplicit false

namespace FencedTape

/-! ## Partners -/

theorem Program.getElem?_code (p : Program) (address : Nat) :
    p.code.toList[address]? = p.get? address :=
  Array.getElem?_toList

namespace Encloses

variable {p : Program} {first last : Nat}

theorem get?_first (h : Encloses p.code.toList first last) : p.get? first = some .loopOpen :=
  (p.getElem?_code first).symm.trans h.opens

theorem get?_last (h : Encloses p.code.toList first last) : p.get? last = some .loopClose :=
  (p.getElem?_code last).symm.trans h.closes

theorem partner_first (h : Encloses p.code.toList first last) : p.jumpTarget first - 1 = last := by
  rw [h.jumpTarget.1, Nat.add_sub_cancel]

theorem partner_last (h : Encloses p.code.toList first last) : p.jumpTarget last - 1 = first := by
  rw [h.jumpTarget.2, Nat.add_sub_cancel]

end Encloses

/-! ## The lines of a listing -/

namespace Listing

theorem write_append (level : Nat) (first rest : List Instr) :
    write level (first ++ rest) =
      write level first ++ write (first.foldl levelAfter level) rest := by
  induction first generalizing level with
  | nil => rfl
  | cons instr first ih =>
      rw [List.cons_append, write, write, ih, List.append_assoc, List.foldl_cons]

theorem pieces_write (level : Nat) (code : List Instr) :
    Text.pieces (· = '\n') (write level code) =
      code.mapIdx (fun i instr =>
        List.replicate (4 * ownLevel ((code.take i).foldl levelAfter level) instr) ' ' ++
          writeInstr instr) ++ [[]] := by
  induction code generalizing level with
  | nil => rfl
  | cons instr code ih =>
      rw [pieces_write_cons, ih, List.mapIdx_cons]
      rfl

end Listing

namespace Program

/-- The starts of the loops around an instruction. -/
def enclosing (p : Program) (address : Nat) : Finset Nat :=
  (Finset.range address).filter fun start =>
    p.get? start = some .loopOpen ∧ address < p.jumpTarget start - 1

/-- The starts of the loops that have not ended when an instruction is reached. -/
def unended (p : Program) (address : Nat) : Finset Nat :=
  (Finset.range address).filter fun start =>
    p.get? start = some .loopOpen ∧ address ≤ p.jumpTarget start - 1

def starts (p : Program) : Finset Nat :=
  (Finset.range p.size).filter fun start => p.get? start = some .loopOpen

def levelAt (p : Program) (address : Nat) : Nat :=
  (p.code.toList.take address).foldl Listing.levelAfter 0

def depthAt (p : Program) (address : Nat) : Int :=
  (p.code.toList.take address).foldl depthAfter 0

theorem exists_last {p : Program} {first : Nat} (opens : p.get? first = some .loopOpen) :
    ∃ last, Encloses p.code.toList first last :=
  exists_end p.balanced_code ((p.getElem?_code first).trans opens)

theorem exists_first {p : Program} {last : Nat} (closes : p.get? last = some .loopClose) :
    ∃ first, Encloses p.code.toList first last :=
  exists_start p.balanced_code ((p.getElem?_code last).trans closes)

/-! ## Counting -/

theorem card_filter_get? (p : Program) (instr : Instr) (n : Nat) :
    ((Finset.range n).filter fun i => p.get? i = some instr).card =
      (p.code.toList.take n).count instr := by
  induction n with
  | zero => rfl
  | succ n ih =>
      rw [Finset.range_add_one, Finset.filter_insert, List.take_add_one, List.count_append,
        p.getElem?_code, ← ih]
      split_ifs with here
      · rw [Finset.card_insert_of_notMem (by simp), here]
        simp
      · cases fetched : p.get? n with
        | none => simp
        | some other =>
            have differ : other ≠ instr := by
              rintro rfl
              exact here fetched
            simp [differ]

/-- The loops that start and end in a prefix are as many as the ends in it. -/
theorem card_ended (p : Program) (n : Nat) :
    ((Finset.range n).filter fun start =>
      p.get? start = some .loopOpen ∧ p.jumpTarget start - 1 < n).card =
      ((Finset.range n).filter fun stop => p.get? stop = some .loopClose).card := by
  apply Finset.card_nbij' (fun start => p.jumpTarget start - 1) fun stop => p.jumpTarget stop - 1
  · intro start mem
    simp only [Finset.coe_filter, Finset.mem_range, Set.mem_ofPred_eq] at mem ⊢
    obtain ⟨last, loop⟩ := exists_last mem.2.1
    rw [loop.partner_first] at mem ⊢
    exact ⟨mem.2.2, loop.get?_last⟩
  · intro stop mem
    simp only [Finset.coe_filter, Finset.mem_range, Set.mem_ofPred_eq] at mem ⊢
    obtain ⟨first, loop⟩ := exists_first mem.2
    rw [loop.partner_last, loop.partner_first]
    exact ⟨Nat.lt_trans loop.less mem.1, loop.get?_first, mem.1⟩
  · intro start mem
    simp only [Finset.coe_filter, Finset.mem_range, Set.mem_ofPred_eq] at mem
    obtain ⟨last, loop⟩ := exists_last mem.2.1
    dsimp only
    rw [loop.partner_first, loop.partner_last]
  · intro stop mem
    simp only [Finset.coe_filter, Finset.mem_range, Set.mem_ofPred_eq] at mem
    obtain ⟨first, loop⟩ := exists_first mem.2
    dsimp only
    rw [loop.partner_last, loop.partner_first]

/-- The nesting of a prefix is the number of loops that start in it and do not end in it. -/
theorem card_unended (p : Program) (n : Nat) :
    ((p.unended n).card : Int) = nesting (p.code.toList.take n) := by
  have split := Finset.card_filter_add_card_filter_not
    (s := (Finset.range n).filter fun start => p.get? start = some .loopOpen)
    fun start => p.jumpTarget start - 1 < n
  simp only [Finset.filter_filter, Nat.not_lt] at split
  rw [card_ended, card_filter_get?, card_filter_get?] at split
  rw [unended, nesting]
  omega

theorem nonneg_nesting_take (p : Program) (n : Nat) : 0 ≤ nesting (p.code.toList.take n) := by
  obtain ⟨b, flat⟩ := p.balanced_code
  rw [← flat]
  exact nesting_take_flatten b n

theorem foldl_depthAfter (depth : Int) (code : List Instr) :
    code.foldl depthAfter depth = depth + nesting code := by
  induction code generalizing depth with
  | nil => exact (Int.add_zero depth).symm
  | cons instr code ih =>
      rw [List.foldl_cons, ih]
      cases instr with
      | act action => rw [depthAfter, nesting_act]
      | loopOpen =>
          rw [depthAfter, nesting_loopOpen]
          omega
      | loopClose =>
          rw [depthAfter, nesting_loopClose]
          omega

theorem depthAt_eq_nesting (p : Program) (address : Nat) :
    p.depthAt address = nesting (p.code.toList.take address) := by
  rw [depthAt, foldl_depthAfter, Int.zero_add]

theorem levelAt_succ {p : Program} {address : Nat} {instr : Instr}
    (fetched : p.get? address = some instr) :
    p.levelAt (address + 1) = Listing.levelAfter (p.levelAt address) instr := by
  rw [levelAt, List.take_add_one, p.getElem?_code, fetched, List.foldl_append]
  rfl

/-- Writing and measuring count the same, because neither would go below zero. -/
theorem cast_levelAt (p : Program) (n : Nat) : (p.levelAt n : Int) = p.depthAt n := by
  rw [depthAt_eq_nesting]
  induction n with
  | zero => rfl
  | succ n ih =>
      cases fetched : p.get? n with
      | none =>
          have short : p.code.toList.take (n + 1) = p.code.toList.take n := by
            rw [List.take_add_one, p.getElem?_code, fetched, Option.toList_none, List.append_nil]
          rw [levelAt, short]
          exact ih
      | some instr =>
          have next := p.nonneg_nesting_take (n + 1)
          rw [levelAt_succ fetched]
          rw [List.take_add_one, p.getElem?_code, fetched, nesting_append, ← ih] at next ⊢
          cases instr with
          | act action => simp [Listing.levelAfter]
          | loopOpen => simp [Listing.levelAfter]
          | loopClose =>
              simp only [Option.toList_some, nesting_loopClose, nesting_nil,
                Listing.levelAfter] at next ⊢
              omega

theorem depthAt_pos_of_end {p : Program} {address : Nat}
    (closes : p.get? address = some .loopClose) : 0 < p.depthAt address := by
  have next := p.nonneg_nesting_take (address + 1)
  rw [List.take_add_one, p.getElem?_code, closes, nesting_append, ← depthAt_eq_nesting] at next
  simp only [Option.toList_some, nesting_loopClose, nesting_nil] at next
  omega

/-! ## The loops around an instruction -/

theorem enclosing_of_not_end {p : Program} {address : Nat}
    (other : p.get? address ≠ some .loopClose) : p.enclosing address = p.unended address := by
  apply Finset.filter_congr
  intro start _
  constructor
  · rintro ⟨opens, inside⟩
    exact ⟨opens, Nat.le_of_lt inside⟩
  · rintro ⟨opens, inside⟩
    refine ⟨opens, Nat.lt_of_le_of_ne inside ?_⟩
    obtain ⟨last, loop⟩ := exists_last opens
    rw [loop.partner_first]
    rintro rfl
    exact other loop.get?_last

theorem unended_of_end {p : Program} {first last : Nat}
    (h : Encloses p.code.toList first last) : p.unended last = insert first (p.enclosing last) := by
  ext start
  simp only [unended, enclosing, Finset.mem_insert, Finset.mem_filter, Finset.mem_range]
  constructor
  · rintro ⟨less, opens, inside⟩
    rcases Nat.lt_or_eq_of_le inside with inside | ends
    · exact Or.inr ⟨less, opens, inside⟩
    · obtain ⟨stop, loop⟩ := exists_last opens
      rw [loop.partner_first] at ends
      subst stop
      exact Or.inl ((loop.unique p.balanced_code h).mpr rfl)
  · rintro (rfl | ⟨less, opens, inside⟩)
    · exact ⟨h.less, h.get?_first, Nat.le_of_eq h.partner_first.symm⟩
    · exact ⟨less, opens, Nat.le_of_lt inside⟩

/-- An instruction stands at the level of the loops around it. -/
theorem card_enclosing {p : Program} {address : Nat} {instr : Instr}
    (fetched : p.get? address = some instr) :
    (p.enclosing address).card = Listing.ownLevel (p.levelAt address) instr := by
  have counted : (p.unended address).card = p.levelAt address := by
    have unended := p.card_unended address
    rw [← depthAt_eq_nesting, ← cast_levelAt] at unended
    exact Int.ofNat.inj unended
  cases instr with
  | act action =>
      rw [enclosing_of_not_end (by simp [fetched]), counted, Listing.ownLevel]
  | loopOpen =>
      rw [enclosing_of_not_end (by simp [fetched]), counted, Listing.ownLevel]
  | loopClose =>
      obtain ⟨first, loop⟩ := exists_first fetched
      have outside : first ∉ p.enclosing address := by
        simp [enclosing, loop.partner_first]
      rw [unended_of_end loop, Finset.card_insert_of_notMem outside] at counted
      rw [Listing.ownLevel, Listing.levelAfter]
      omega

theorem enclosing_of_encloses {p : Program} {first last : Nat}
    (h : Encloses p.code.toList first last) : p.enclosing last = p.enclosing first := by
  ext start
  simp only [enclosing, Finset.mem_filter, Finset.mem_range]
  by_cases opens : p.get? start = some .loopOpen
  · obtain ⟨stop, loop⟩ := exists_last opens
    have less := h.less
    have unique := loop.unique p.balanced_code h
    have nested := loop.apart_or_nested p.balanced_code h
    rw [loop.partner_first]
    constructor
    · rintro ⟨before, -, inside⟩
      exact ⟨by omega, opens, by omega⟩
    · rintro ⟨before, -, inside⟩
      exact ⟨by omega, opens, by omega⟩
  · simp [opens]

/-! ## Listings -/

theorem lines_toListing (p : Program) :
    Text.pieces (· = '\n') p.toListing.toList =
      p.code.toList.mapIdx (fun address instr =>
        List.replicate (4 * (p.enclosing address).card) ' ' ++ Listing.writeInstr instr) ++
          [[]] := by
  rw [toListing, String.toList_ofList, Listing.pieces_write]
  congr 1
  rw [List.mapIdx_eq_mapIdx_iff]
  intro address bound
  have fetched : p.get? address = some p.code.toList[address] := by
    rw [← p.getElem?_code, List.getElem?_eq_getElem bound]
  rw [card_enclosing fetched, levelAt]

/-! ## The deepest nesting -/

theorem deepest_append (depth : Int) (first rest : List Instr) :
    deepest depth (first ++ rest) =
      max (deepest depth first) (deepest (first.foldl depthAfter depth) rest) := by
  fun_induction deepest depth first with
  | case1 depth => exact (Int.max_eq_right (deepest_nonneg depth rest)).symm
  | case2 depth first ih =>
      rw [List.cons_append, deepest, ih, ← Int.max_assoc]
      rfl
  | case3 depth instr first other ih =>
      rw [List.cons_append, deepest, ih]
      · rfl
      · exact other

/-- Only the start of a loop takes the depth further down. -/
theorem deepest_le_iff {depth bound : Int} {code : List Instr} :
    deepest depth code ≤ bound ↔
      0 ≤ bound ∧ ∀ i, code[i]? = some .loopOpen →
        (code.take i).foldl depthAfter depth + 1 ≤ bound := by
  fun_induction deepest depth code with
  | case1 depth => simp
  | case2 depth code ih =>
      rw [Int.max_le, ih]
      constructor
      · rintro ⟨next, nonneg, later⟩
        refine ⟨nonneg, ?_⟩
        intro i opens
        cases i with
        | zero => exact next
        | succ i => exact later i opens
      · rintro ⟨nonneg, later⟩
        exact ⟨later 0 rfl, nonneg, fun i opens => later (i + 1) opens⟩
  | case3 depth instr code other ih =>
      rw [ih]
      constructor
      · rintro ⟨nonneg, later⟩
        refine ⟨nonneg, ?_⟩
        intro i opens
        cases i with
        | zero => exact absurd (Option.some.inj opens) other
        | succ i => exact later i opens
      · rintro ⟨nonneg, later⟩
        exact ⟨nonneg, fun i opens => later (i + 1) opens⟩

theorem cast_maxDepth (p : Program) : (p.maxDepth : Int) = deepest 0 p.code.toList :=
  Int.toNat_of_nonneg (deepest_nonneg 0 p.code.toList)

theorem maxDepth_eq_sup (p : Program) :
    p.maxDepth = p.starts.sup fun start => (p.enclosing start).card + 1 := by
  apply eq_of_forall_ge_iff
  intro bound
  rw [← Int.ofNat_le, cast_maxDepth, deepest_le_iff, Finset.sup_le_iff]
  have level {start : Nat} (opens : p.get? start = some .loopOpen) :
      ((p.enclosing start).card : Int) = p.depthAt start := by
    rw [card_enclosing opens, Listing.ownLevel, cast_levelAt]
  constructor
  · rintro ⟨-, all⟩ start mem
    have opens := (Finset.mem_filter.mp mem).2
    have deep := all start ((p.getElem?_code start).trans opens)
    rw [← depthAt, ← level opens] at deep
    omega
  · intro all
    refine ⟨Int.natCast_nonneg bound, ?_⟩
    intro start opens
    rw [p.getElem?_code] at opens
    have inside : start < p.size := (Array.getElem?_eq_some_iff.mp opens).1
    have deep := all start (Finset.mem_filter.mpr ⟨Finset.mem_range.mpr inside, opens⟩)
    rw [← depthAt, ← level opens]
    omega

/-- Indentation, depth and jump table describe the same nesting.  A listing has a line for each
instruction, in order, with four blanks for each loop around the instruction and no blank more, and
the same loops are around the two ends of a loop.  At each instruction writing has counted a level
and measuring a depth; they are the same, and above zero where a loop ends.  The deepest nesting is
that of the start with the most loops around it, that loop included, and zero if no loop starts. -/
theorem indentation_and_depth_follow_table (p : Program) :
    Text.pieces (· = '\n') p.toListing.toList =
        p.code.toList.mapIdx (fun address instr =>
          List.replicate (4 * (p.enclosing address).card) ' ' ++ Listing.writeInstr instr) ++
            [[]] ∧
      (∀ instr, (Listing.writeInstr instr).head? ≠ some ' ') ∧
      (∀ start, p.get? start = some .loopOpen →
        p.get? (p.jumpTarget start - 1) = some .loopClose ∧
          p.enclosing (p.jumpTarget start - 1) = p.enclosing start) ∧
      (∀ address,
        p.toListing.toList = Listing.write 0 (p.code.toList.take address) ++
            Listing.write (p.levelAt address) (p.code.toList.drop address) ∧
          p.maxDepth = max (deepest 0 (p.code.toList.take address))
            (deepest (p.depthAt address) (p.code.toList.drop address)) ∧
          p.levelAt address = p.depthAt address) ∧
      (∀ address, p.get? address = some .loopClose → 0 < p.depthAt address) ∧
      p.maxDepth = p.starts.sup fun start => (p.enclosing start).card + 1 := by
  refine ⟨p.lines_toListing, ?_, ?_, ?_, ?_, p.maxDepth_eq_sup⟩
  · intro instr head
    exact absurd (Listing.isBlank_head_writeInstr head) (by decide)
  · intro start opens
    obtain ⟨last, loop⟩ := exists_last opens
    rw [loop.partner_first]
    exact ⟨loop.get?_last, enclosing_of_encloses loop⟩
  · intro address
    refine ⟨?_, ?_, p.cast_levelAt address⟩
    · rw [toListing, String.toList_ofList, levelAt, ← Listing.write_append, List.take_append_drop]
    · rw [cast_maxDepth, depthAt, ← deepest_append, List.take_append_drop]
  · intro address closes
    exact depthAt_pos_of_end closes

end Program

end FencedTape
