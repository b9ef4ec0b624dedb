import FencedTape.Proofs.LineEndings

/-! # Listings are read back

What writing puts together, reading takes apart: first the operands of an instruction, then the
numbers among them, then the line with its indentation, and then the listing with all its lines.
No character of a written instruction starts a comment or ends a line, and no character of its
operands is a parenthesis, so every cut falls where writing has joined. -/

set_option autoImplicit false

namespace FencedTape.Listing

/-! ## The characters of an instruction -/

/-- The characters that instructions are written with. -/
def isWritten (c : Char) : Bool := c.isAlphanum || c ∈ ['_', '(', ')', ',', ' ', '-']

theorem isWritten_of_mem_text {mnemonic : Mnemonic} {c : Char} (h : c ∈ mnemonic.text.toList) :
    isWritten c = true := by
  have all : mnemonic.text.toList.all isWritten = true := by
    cases mnemonic <;> decide
  exact List.all_eq_true.mp all c h

theorem isBlank_of_mem_text {mnemonic : Mnemonic} {c : Char} (h : c ∈ mnemonic.text.toList) :
    Text.isBlank c = false := by
  have all : (mnemonic.text.toList.all fun c => !Text.isBlank c) = true := by
    cases mnemonic <;> decide
  simpa using List.all_eq_true.mp all c h

theorem openParen_notMem_text (mnemonic : Mnemonic) : '(' ∉ mnemonic.text.toList := by
  cases mnemonic <;> decide

theorem text_ne_nil (mnemonic : Mnemonic) : mnemonic.text.toList ≠ [] := by
  cases mnemonic <;> decide

/-! ## Operands -/

theorem writeOperands_cons (value : Int) {values : List Int} (nonempty : values ≠ []) :
    writeOperands (value :: values) =
      Text.ofInt value ++ ',' :: ' ' :: writeOperands values := by
  cases values with
  | nil => exact absurd rfl nonempty
  | cons next values => rfl

theorem writeOperands_ne_nil {values : List Int} (nonempty : values ≠ []) :
    writeOperands values ≠ [] := by
  cases values with
  | nil => exact absurd rfl nonempty
  | cons value values =>
      cases values with
      | nil => exact Text.ofInt_ne_nil value
      | cons next values => simp [writeOperands]

theorem mem_writeOperands {values : List Int} {c : Char} (h : c ∈ writeOperands values) :
    c.isDigit = true ∨ c = '-' ∨ c = ',' ∨ c = ' ' := by
  induction values with
  | nil => simp [writeOperands] at h
  | cons value values ih =>
      by_cases single : values = []
      · subst values
        exact (Text.mem_ofInt h).imp_right Or.inl
      · rw [writeOperands_cons value single] at h
        simp only [List.mem_append, List.mem_cons] at h
        rcases h with number | comma | space | rest
        · exact (Text.mem_ofInt number).imp_right Or.inl
        · exact Or.inr (Or.inr (Or.inl comma))
        · exact Or.inr (Or.inr (Or.inr space))
        · exact ih rest

theorem closeParen_notMem_writeOperands (values : List Int) : ')' ∉ writeOperands values := by
  intro mem
  have impossible := mem_writeOperands mem
  revert impossible
  decide

theorem isBlank_head_writeOperands {values : List Int} {c : Char}
    (h : (writeOperands values).head? = some c) : Text.isBlank c = false := by
  cases values with
  | nil => simp [writeOperands] at h
  | cons value values =>
      have number : (Text.ofInt value).head? = some c := by
        cases values with
        | nil => exact h
        | cons next values =>
            rwa [writeOperands_cons value (by simp),
              List.head?_append_of_ne_nil _ (Text.ofInt_ne_nil value)] at h
      exact Text.isBlank_of_mem_ofInt (List.mem_of_mem_head? number)

theorem isBlank_last_writeOperands {values : List Int} {c : Char}
    (h : (writeOperands values).getLast? = some c) : Text.isBlank c = false := by
  induction values with
  | nil => simp [writeOperands] at h
  | cons value values ih =>
      cases values with
      | nil => exact Text.isBlank_of_mem_ofInt (List.mem_of_getLast? h)
      | cons next values =>
          have rest : writeOperands (next :: values) ≠ [] := writeOperands_ne_nil (by simp)
          apply ih
          rw [writeOperands_cons value (by simp)] at h
          simpa [List.getLast?_cons, List.getLast?_eq_some_getLast rest] using h

theorem map_trim_pieces_writeOperands {values : List Int} (nonempty : values ≠ []) :
    (Text.pieces (· = ',') (writeOperands values)).map Text.trim = values.map Text.ofInt := by
  induction values with
  | nil => exact absurd rfl nonempty
  | cons value values ih =>
      have uncut : ∀ c ∈ Text.ofInt value, decide (c = ',') = false := by
        intro c mem
        rw [decide_eq_false_iff_not]
        rintro rfl
        rcases Text.mem_ofInt mem with digit | sign
        · exact absurd digit (by decide)
        · exact absurd sign (by decide)
      have number : Text.trim (Text.ofInt value) = Text.ofInt value :=
        Text.trim_of_solid fun c mem => Text.isBlank_of_mem_ofInt mem
      cases values with
      | nil =>
          rw [writeOperands, Text.pieces_of_uncut uncut, List.map_singleton, number]
          rfl
      | cons next values =>
          -- the space after the comma goes with the next piece, where it is trimmed off
          rw [writeOperands_cons value (by simp), Text.pieces_append_cut uncut (by decide),
            List.map_cons, number, Text.map_trim_pieces_cons _ (by decide) (by decide),
            ih (by simp)]
          rfl

/-- Operands are read back as they were written. -/
theorem operands_writeOperands (values : List Int) :
    operands (writeOperands values) = values.map Text.ofInt := by
  have trimmed : Text.trim (writeOperands values) = writeOperands values :=
    Text.trim_eq_self (fun _ => isBlank_head_writeOperands) (fun _ => isBlank_last_writeOperands)
  rw [operands, trimmed]
  by_cases empty : values = []
  · subst values
    rfl
  · rw [if_neg (writeOperands_ne_nil empty), map_trim_pieces_writeOperands empty]

/-! ## Numbers -/

theorem offset_ofInt (w : Int64) : offset (Text.ofInt w.toInt) = .ok w := by
  rw [offset, Text.word?_ofInt]

/-- A byte is read back from any integer that stands for it modulo 256. -/
theorem byte_ofInt {v : Int} {b : UInt8} (lower : -255 ≤ v) (upper : v ≤ 255)
    (residue : v % 256 = b.toNat) : byte (Text.ofInt v) = .ok b := by
  have value : (Int64.ofInt v).toInt = v :=
    Int64.toInt_ofInt_of_le (by omega) (by omega)
  have word := offset_ofInt (Int64.ofInt v)
  rw [value] at word
  have read : UInt8.ofNat (v % 256).toNat = b := by
    rw [residue, Int.toNat_natCast, UInt8.ofNat_toNat]
  simp only [byte, word, bind, Except.bind, value]
  rw [if_pos ⟨lower, upper⟩, read]
  rfl

theorem byte_signed (b : UInt8) : byte (Text.ofInt (signed b)) = .ok b := by
  have lower := b.toInt8.le_toInt
  have upper := b.toInt8.toInt_lt
  have residue : signed b % 256 = b.toNat := by
    -- the signed reading differs from the unsigned one by 0 or by 256
    have word : signed b = Int.bmod b.toNat 256 := BitVec.toInt_eq_toNat_bmod b.toBitVec
    have same : Int.bmod b.toNat 256 % (256 : Nat) = b.toNat % (256 : Nat) := Int.bmod_emod
    have bound := b.toNat_lt
    omega
  exact byte_ofInt (by rw [signed]; omega) (by rw [signed]; omega) residue

theorem byte_toNat (b : UInt8) : byte (Text.ofInt b.toNat) = .ok b := by
  have bound := b.toNat_lt
  exact byte_ofInt (by omega) (by omega) (by omega)

theorem assemble_parts (instr : Instr) :
    assemble (parts instr).1 ((parts instr).2.map Text.ofInt) = .ok instr := by
  cases instr with
  | loopOpen => rfl
  | loopClose => rfl
  | act action =>
      cases action with
      | adjust o delta =>
          simp only [parts, List.map, assemble, offset_ofInt, byte_signed]
          rfl
      | select delta =>
          simp only [parts, List.map, assemble, offset_ofInt]
          rfl
      | read o =>
          simp only [parts, List.map, assemble, offset_ofInt]
          rfl
      | write o =>
          simp only [parts, List.map, assemble, offset_ofInt]
          rfl
      | set o value =>
          simp only [parts, List.map, assemble, offset_ofInt, byte_toNat]
          rfl
      | multiplyAdd o factor =>
          simp only [parts, List.map, assemble, offset_ofInt, byte_signed]
          rfl
      | scan direction => cases direction <;> rfl

/-! ## Lines -/

theorem writeInstr_eq (instr : Instr) :
    writeInstr instr =
      (parts instr).1.text.toList ++ '(' :: (writeOperands (parts instr).2 ++ [')']) := by
  simp [writeInstr]

theorem isWritten_of_mem_writeInstr {instr : Instr} {c : Char} (h : c ∈ writeInstr instr) :
    isWritten c = true := by
  rw [writeInstr_eq] at h
  simp only [List.mem_append, List.mem_cons, List.not_mem_nil, or_false] at h
  rcases h with name | rfl | operand | rfl
  · exact isWritten_of_mem_text name
  · rfl
  · rcases mem_writeOperands operand with digit | rfl | rfl | rfl
    · simp [isWritten, Char.isAlphanum, digit]
    · rfl
    · rfl
    · rfl
  · rfl

theorem isWritten_of_mem_indented {width : Nat} {instr : Instr} {c : Char}
    (h : c ∈ List.replicate width ' ' ++ writeInstr instr) : isWritten c = true := by
  rcases List.mem_append.mp h with space | mem
  · rw [List.eq_of_mem_replicate space]
    rfl
  · exact isWritten_of_mem_writeInstr mem

theorem isBlank_head_writeInstr {instr : Instr} {c : Char}
    (h : (writeInstr instr).head? = some c) : Text.isBlank c = false := by
  rw [writeInstr_eq, List.head?_append_of_ne_nil _ (text_ne_nil _)] at h
  exact isBlank_of_mem_text (List.mem_of_mem_head? h)

theorem getLast?_writeInstr (instr : Instr) : (writeInstr instr).getLast? = some ')' :=
  List.getLast?_concat

theorem withoutComment_eq_self {s : List Char} (h : ∀ c ∈ s, c ≠ '#' ∧ c ≠ '/') :
    withoutComment s = s := by
  induction s with
  | nil => rfl
  | cons c s ih =>
      have uncommented := h c List.mem_cons_self
      have rest := ih fun d mem => h d (List.mem_cons_of_mem c mem)
      rw [withoutComment, rest]
      · exact uncommented.1
      · intro _ slash
        exact absurd slash uncommented.2

theorem body_writeInstr (width : Nat) (instr : Instr) :
    body (List.replicate width ' ' ++ writeInstr instr) = writeInstr instr := by
  have uncommented : ∀ c ∈ List.replicate width ' ' ++ writeInstr instr, c ≠ '#' ∧ c ≠ '/' := by
    intro c mem
    have written := isWritten_of_mem_indented mem
    constructor <;> rintro rfl <;> exact absurd written (by decide)
  have trimmed : Text.trim (List.replicate width ' ' ++ writeInstr instr) = writeInstr instr := by
    rw [← List.append_nil (List.replicate width ' ' ++ writeInstr instr)]
    apply Text.trim_surrounded
    · intro c space
      rw [List.eq_of_mem_replicate space]
      rfl
    · intro c mem
      exact absurd mem List.not_mem_nil
    · intro c head
      exact isBlank_head_writeInstr head
    · intro c last
      rw [getLast?_writeInstr] at last
      rw [← Option.some.inj last]
      rfl
  rw [body, withoutComment_eq_self uncommented, trimmed, withoutSemicolon, getLast?_writeInstr]
  rfl

theorem readBody_writeInstr (instr : Instr) : readBody (writeInstr instr) = .ok instr := by
  have name : Text.trim (parts instr).1.text.toList = (parts instr).1.text.toList :=
    Text.trim_of_solid fun c mem => isBlank_of_mem_text mem
  have mnemonic : Mnemonic.ofText? (parts instr).1.text.toList = some (parts instr).1 :=
    Mnemonic.ofText?_eq_some_iff.mpr rfl
  rw [readBody, writeInstr_eq, Text.splitAtFirst_append (openParen_notMem_text _)]
  simp only [Text.splitAtFirst_append (closeParen_notMem_writeOperands _), name, mnemonic,
    operands_writeOperands, assemble_parts]
  rfl

theorem readLine_writeInstr (width : Nat) (instr : Instr) :
    readLine (List.replicate width ' ' ++ writeInstr instr) = .ok (some instr) := by
  rw [readLine, body_writeInstr]
  split
  · next empty =>
      have last := getLast?_writeInstr instr
      rw [empty] at last
      exact absurd last (by simp)
  · next c s written =>
      rw [← written, readBody_writeInstr]
      rfl

/-! ## Listings -/

/-- No character of an instruction ends its line. -/
theorem pieces_write_cons (level : Nat) (instr : Instr) (code : List Instr) :
    Text.pieces (· = '\n') (write level (instr :: code)) =
      (List.replicate (4 * ownLevel level instr) ' ' ++ writeInstr instr) ::
        Text.pieces (· = '\n') (write (levelAfter level instr) code) := by
  have uncut : ∀ c ∈ List.replicate (4 * ownLevel level instr) ' ' ++ writeInstr instr,
      decide (c = '\n') = false := by
    intro c mem
    rw [decide_eq_false_iff_not]
    rintro rfl
    exact absurd (isWritten_of_mem_indented mem) (by decide)
  rw [write, writeLine, List.append_assoc, List.singleton_append,
    Text.pieces_append_cut uncut (by decide)]

theorem readLines_write (number level : Nat) (code : List Instr) :
    readLines number (Text.pieces (· = '\n') (write level code)) = .ok code := by
  induction code generalizing number level with
  | nil => rfl
  | cons instr code ih =>
      rw [pieces_write_cons, readLines, readLine_writeInstr]
      simp only [ih]
      rfl

end FencedTape.Listing

namespace FencedTape.Program

theorem ofListing_toListing (p : Program) : ofListing p.toListing = .ok p := by
  have code : Listing.read p.toListing.toList = .ok p.code.toList := by
    rw [toListing, String.toList_ofList, Listing.read_eq]
    exact Listing.readLines_write 1 0 p.code.toList
  simp only [ofListing, code, ofCode_code]
  rfl

end FencedTape.Program
