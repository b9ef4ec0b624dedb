import FencedTape.Proofs.LineEndings
import FencedTape.Proofs.Pairing

/-! # Listings put together

A listing followed by a line feed and another listing describes the first program followed by the
second.  Lines are read one by one, so that those of the second listing only have other numbers
(`readLines_append`, `readLines_add`).  Loops are paired with a stack that the first program leaves
empty, so that the second is paired as it is on its own, with every address moved up
(`jumpTable_append`), and it starts at depth 0 again (`deepest_flatten_append`). -/

set_option autoImplicit false

namespace FencedTape

def LoopError.moved (count : Nat) : LoopError → LoopError
  | .unmatchedOpen address => .unmatchedOpen (address + count)
  | .unmatchedClose address => .unmatchedClose (address + count)

/-- The same error when so many more lines stand in front of the listing, with so many
instructions on them. -/
def ListingError.moved (lines instrs : Nat) : ListingError → ListingError
  | .line number cause => .line (number + lines) cause
  | .loop cause => .loop (cause.moved instrs)

/-! ## Lines -/

namespace Listing

theorem readLines_append {lines more : List (List Char)} {number : Nat} {code : List Instr}
    (h : readLines number lines = .ok code) :
    readLines number (lines ++ more) =
      (readLines (number + lines.length) more).map (code ++ ·) := by
  fun_induction readLines number lines generalizing code with
  | case1 number =>
      cases h
      change readLines number more = _
      cases readLines number more <;> rfl
  | case2 number line lines cause here => cases h
  | case3 number line lines here ih =>
      rw [List.cons_append, readLines, here, List.length_cons, Nat.add_comm lines.length,
        ← Nat.add_assoc]
      exact ih h
  | case4 number line lines instr here ih =>
      cases later : readLines (number + 1) lines with
      | error e =>
          rw [later] at h
          cases h
      | ok rest =>
          rw [later] at h
          cases h
          rw [List.cons_append, readLines, here, List.length_cons, Nat.add_comm lines.length,
            ← Nat.add_assoc]
          simp only [ih later]
          cases readLines (number + 1 + lines.length) more <;> rfl

theorem readLines_add (number count instrs : Nat) (lines : List (List Char)) :
    readLines (number + count) lines =
      (readLines number lines).mapError (.moved count instrs) := by
  fun_induction readLines number lines with
  | case1 number => rfl
  | case2 number line lines cause here =>
      rw [readLines, here]
      rfl
  | case3 number line lines here ih =>
      rw [readLines, here, Nat.add_right_comm]
      exact ih
  | case4 number line lines instr here ih =>
      rw [readLines, here, Nat.add_right_comm]
      simp only [ih]
      cases readLines (number + 1) lines <;> rfl

theorem read_append {first : List Char} {code : List Instr} (h : read first = .ok code)
    (second : List Char) :
    read (first ++ '\n' :: second) =
      match read second with
      | .ok more => .ok (code ++ more)
      | .error e => .error (e.moved (1 + first.count '\n') code.length) := by
  have lines : (Text.pieces (· = '\n') first).length = 1 + first.count '\n' := by
    rw [Text.length_pieces, Nat.add_comm]
    rfl
  rw [read_eq] at h
  rw [read_eq, read_eq, Text.pieces_append (by decide), readLines_append h, lines,
    readLines_add 1 _ code.length]
  cases readLines 1 (Text.pieces (· = '\n') second) <;> rfl

end Listing

/-! ## Jump tables -/

namespace Program

/-- A jump table, or what is wrong with the code, when the code is put behind code with the table
`front`. -/
def behind (front : Array Nat) : Except LoopError (Array Nat) → Except LoopError (Array Nat)
  | .ok jumps => .ok (front ++ jumps.map (· + front.size))
  | .error e => .error (e.moved front.size)

theorem extendTable_behind (front : Array Nat) (code : List Instr) (waiting : List Nat)
    (table : Array Nat) :
    extendTable code (waiting.map (· + front.size)) (front ++ table.map (· + front.size)) =
      behind front (extendTable code waiting table) := by
  have size : ∀ table : Array Nat,
      (front ++ table.map (· + front.size)).size = table.size + front.size := by
    intro table
    rw [Array.size_append, Array.size_map, Nat.add_comm]
  -- the stack and the table are those of the code on its own, with all addresses moved up
  fun_induction extendTable code waiting table with
  | case1 table => rfl
  | case2 => rfl
  | case3 action code waiting table ih =>
      rw [Array.map_push, ← Array.push_append] at ih
      rw [extendTable, size, ih]
  | case4 code waiting table ih =>
      rw [Array.map_push, ← Array.push_append, List.map_cons] at ih
      rw [extendTable, size, ih]
  | case5 code table =>
      rw [List.map_nil, extendTable, size]
      rfl
  | case6 code address waiting table ih =>
      have settled : (front ++ table.map (· + front.size)).setIfInBounds (address + front.size)
          (table.size + front.size + 1) =
            front ++ (table.setIfInBounds address (table.size + 1)).map (· + front.size) := by
        rw [Array.setIfInBounds_append_right (Nat.le_add_left _ _), Nat.add_sub_cancel,
          Array.map_setIfInBounds, Nat.add_right_comm]
      rw [Array.map_push, ← Array.push_append, Nat.add_right_comm] at ih
      rw [List.map_cons, extendTable, size, settled, ih]

theorem balanced_code (p : Program) : Balanced p.code.toList := closing_of_extendTable p.paired

theorem jumpTable_append (p : Program) (code : List Instr) :
    jumpTable (p.code.toList ++ code) = behind p.jumps (jumpTable code) := by
  obtain ⟨b, flat⟩ := p.balanced_code
  have paired := p.paired
  rw [← flat, Block.jumpTable_flatten] at paired
  have targets : #[] ++ (b.targets 0).toArray = p.jumps := by
    rw [Array.empty_append, Except.ok.inj paired]
  have moved := extendTable_behind p.jumps code [] #[]
  rw [List.map_nil, Array.map_empty, Array.append_empty] at moved
  rw [← flat, jumpTable, Block.extendTable_flatten, jumpTable, ← moved]
  exact congrArg _ targets

/-- One program and then another, whose loop ends jump where they did before. -/
def append (p q : Program) : Program where
  code := p.code ++ q.code
  jumps := p.jumps ++ q.jumps.map (· + p.size)
  paired := by rw [Array.toList_append, jumpTable_append, q.paired, behind, p.size_jumps]

theorem ofCode_append_of_ok {code : List Instr} {q : Program} (p : Program)
    (h : ofCode code = .ok q) : ofCode (p.code.toList ++ code) = .ok (p.append q) := by
  have whole : (p.append q).code.toList = p.code.toList ++ code := by
    rw [append, Array.toList_append, code_of_ofCode h]
  rw [← whole]
  exact ofCode_code (p.append q)

theorem ofCode_append_of_error {code : List Instr} {e : LoopError} (p : Program)
    (h : ofCode code = .error e) :
    ofCode (p.code.toList ++ code) = .error (e.moved p.size) := by
  rw [ofCode_eq_error_iff] at h ⊢
  rw [jumpTable_append, h, behind, p.size_jumps]

/-! ## Depths -/

theorem deepest_nonneg (depth : Int) (code : List Instr) : 0 ≤ deepest depth code := by
  fun_induction deepest depth code with
  | case1 depth => exact Int.le_refl 0
  | case2 depth code ih => exact Int.le_trans ih (Int.le_max_right _ _)
  | case3 depth instr code other ih => exact ih

theorem deepest_act (depth : Int) (action : Action) (code : List Instr) :
    deepest depth (.act action :: code) = deepest depth code := rfl

theorem deepest_loopClose (depth : Int) (code : List Instr) :
    deepest depth (.loopClose :: code) = deepest (depth - 1) code := rfl

/-- Behind a block the code is at the depth at which the block was. -/
theorem deepest_flatten_append (b : Block) (depth : Int) (code : List Instr) :
    deepest depth (b.flatten ++ code) = max (deepest depth b.flatten) (deepest depth code) := by
  induction b generalizing depth code with
  | nil => exact (Int.max_eq_right (deepest_nonneg depth code)).symm
  | act action rest ih =>
      rw [Block.flatten, List.cons_append, deepest_act, deepest_act, ih]
  | loop body rest ihBody ihRest =>
      rw [Block.flatten, List.cons_append, List.append_assoc, List.cons_append, deepest, deepest,
        ihBody, ihBody, deepest_loopClose, deepest_loopClose, Int.add_sub_cancel, ihRest]
      simp only [Int.max_assoc]

theorem maxDepth_append (p q : Program) :
    (p.append q).maxDepth = max p.maxDepth q.maxDepth := by
  obtain ⟨b, flat⟩ := p.balanced_code
  have joined := deepest_flatten_append b 0 q.code.toList
  rw [flat] at joined
  rw [maxDepth, maxDepth, maxDepth, append, Array.toList_append, joined]
  omega

/-! ## Listings -/

theorem read_of_ofListing {text : String} {p : Program} (h : ofListing text = .ok p) :
    Listing.read text.toList = .ok p.code.toList := by
  rw [ofListing] at h
  cases parsed : Listing.read text.toList with
  | error e =>
      rw [parsed] at h
      cases h
  | ok code =>
      simp only [parsed] at h
      cases accepted : ofCode code with
      | error e =>
          rw [accepted] at h
          cases h
      | ok q =>
          rw [accepted] at h
          cases h
          rw [code_of_ofCode accepted]

theorem ofListing_append {first : String} {p : Program} (h : ofListing first = .ok p)
    (second : String) :
    ofListing (first ++ "\n" ++ second) =
      match ofListing second with
      | .ok q => .ok (p.append q)
      | .error e => .error (e.moved (1 + first.toList.count '\n') p.size) := by
  have text : (first ++ "\n" ++ second).toList = first.toList ++ '\n' :: second.toList := by
    simp
  have joined := Listing.read_append (read_of_ofListing h) second.toList
  rw [ofListing, text, joined, ofListing]
  cases parsed : Listing.read second.toList with
  | error e => rfl
  | ok code =>
      cases accepted : ofCode code with
      | error e =>
          simp only [accepted, ofCode_append_of_error p accepted]
          rfl
      | ok q =>
          simp only [accepted, ofCode_append_of_ok p accepted]
          rfl

/-- A listing of a program, a line feed and a second listing describe the two programs one after
the other.  What is wrong with the second listing is reported further on by the lines of the first,
or by its instructions. -/
theorem listings_compose {first : String} {p : Program} (h : ofListing first = .ok p)
    (second : String) :
    (∀ q, ofListing second = .ok q →
      ∃ r, ofListing (first ++ "\n" ++ second) = .ok r ∧ r.code = p.code ++ q.code ∧
        r.jumps = p.jumps ++ q.jumps.map (· + p.size) ∧
        r.maxDepth = max p.maxDepth q.maxDepth) ∧
    (∀ number cause, ofListing second = .error (.line number cause) →
      ofListing (first ++ "\n" ++ second) =
        .error (.line (number + 1 + first.toList.count '\n') cause)) ∧
    (∀ address, ofListing second = .error (.loop (.unmatchedOpen address)) →
      ofListing (first ++ "\n" ++ second) =
        .error (.loop (.unmatchedOpen (address + p.size)))) ∧
    ∀ address, ofListing second = .error (.loop (.unmatchedClose address)) →
      ofListing (first ++ "\n" ++ second) =
        .error (.loop (.unmatchedClose (address + p.size))) := by
  rw [ofListing_append h second]
  refine ⟨?_, ?_, ?_, ?_⟩
  · intro q described
    rw [described]
    exact ⟨p.append q, rfl, rfl, rfl, p.maxDepth_append q⟩
  · intro number cause rejected
    rw [rejected, Nat.add_assoc]
    rfl
  · intro address rejected
    rw [rejected]
    rfl
  · intro address rejected
    rw [rejected]
    rfl

theorem listings_after_empty_loop :
    ∃ p, ofListing "OPEN()\r\nCLOSE() # at once\n" = .ok p ∧ p.size = 2 ∧
      (∃ r, ofListing ("OPEN()\r\nCLOSE() # at once\n" ++ "\n" ++ "OPEN()\nCLOSE();") = .ok r ∧
        r.jumps = #[2, 1, 4, 3]) ∧
      ofListing ("OPEN()\r\nCLOSE() # at once\n" ++ "\n" ++ "READ(0)\nREAD(x)") =
        .error (.line 5 (.invalidInteger "x")) ∧
      ofListing ("OPEN()\r\nCLOSE() # at once\n" ++ "\n" ++ "READ(0);\n\nOPEN()") =
        .error (.loop (.unmatchedOpen 3)) ∧
      ofListing ("OPEN()\r\nCLOSE() # at once\n" ++ "\n" ++ "CLOSE()") =
        .error (.loop (.unmatchedClose 2)) := by
  have described : ofListing "OPEN()\r\nCLOSE() # at once\n" =
      .ok (Block.loop .nil .nil).program := by rfl
  refine ⟨_, described, rfl, ?_, ?_, ?_, ?_⟩
  · obtain ⟨r, whole, -, jumps, -⟩ := (listings_compose described "OPEN()\nCLOSE();").1
      (Block.loop .nil .nil).program (by rfl)
    refine ⟨r, whole, ?_⟩
    rw [jumps]
    simp [Block.program, Block.targets, Block.size, Block.flatten, size]
  · exact (listings_compose described _).2.1 2 _ (by rfl)
  · exact (listings_compose described _).2.2.1 1 (by rfl)
  · exact (listings_compose described _).2.2.2 0 (by rfl)

end Program

end FencedTape
