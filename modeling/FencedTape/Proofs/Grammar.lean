import FencedTape.Proofs.RoundTrip
import Mathlib.Data.List.Induction

/-! # The grammar of a line

A line is a body and a comment, which runs from the first `#` or `//` on (`Commented`).  The body is
an invocation, a name and its operands in parentheses, or nothing; blanks may stand between any two
parts and one semicolon may end it (`Terminated`).  The relations say what is allowed and what it
stands for, without a word on how it is read.

Reading takes a line apart by cutting and trimming instead.  `readLine_iff_grammar` says that both
are the same: what the grammar has is read, as the instruction that it stands for, and what it has
not is refused. -/

set_option autoImplicit false

namespace FencedTape.Text

/-- One or more digits and their value. -/
inductive Digits : List Char → Nat → Prop
  | first {c : Char} (digit : c.isDigit = true) : Digits [c] (c.toNat - '0'.toNat)
  | next {s : List Char} {n : Nat} {c : Char} (before : Digits s n) (digit : c.isDigit = true) :
      Digits (s ++ [c]) (10 * n + (c.toNat - '0'.toNat))

/-- An integer literal and its value. -/
inductive Literal : List Char → Int → Prop
  | plain {s : List Char} {n : Nat} (digits : Digits s n) : Literal s n
  | plus {s : List Char} {n : Nat} (digits : Digits s n) : Literal ('+' :: s) n
  | minus {s : List Char} {n : Nat} (digits : Digits s n) : Literal ('-' :: s) (-(n : Int))

/-! ## Literals -/

theorem Digits.ne_nil {s : List Char} {n : Nat} (h : Digits s n) : s ≠ [] := by
  cases h <;> simp

theorem Digits.isDigit {s : List Char} {n : Nat} (h : Digits s n) {c : Char} (mem : c ∈ s) :
    c.isDigit = true := by
  induction h with
  | first digit => exact List.mem_singleton.mp mem ▸ digit
  | next _ digit ih =>
      rcases List.mem_append.mp mem with mem | mem
      · exact ih mem
      · exact List.mem_singleton.mp mem ▸ digit

theorem Digits.value {s : List Char} {n : Nat} (h : Digits s n) : Nat.ofDigitChars 10 s 0 = n := by
  induction h with
  | first digit => simp [Nat.ofDigitChars]
  | next _ _ ih => rw [Nat.ofDigitChars_append, ih, Nat.ofDigitChars_cons, Nat.ofDigitChars_nil]

theorem digits_ofDigitChars {s : List Char} (nonempty : s ≠ [])
    (all : ∀ c ∈ s, c.isDigit = true) : Digits s (Nat.ofDigitChars 10 s 0) := by
  induction s using List.reverseRecOn with
  | nil => exact absurd rfl nonempty
  | append_singleton s c ih =>
      have digit := all c (by simp)
      by_cases single : s = []
      · subst single
        have value : Nat.ofDigitChars 10 [c] 0 = c.toNat - '0'.toNat := by simp [Nat.ofDigitChars]
        rw [List.nil_append, value]
        exact .first digit
      · rw [Nat.ofDigitChars_append, Nat.ofDigitChars_cons, Nat.ofDigitChars_nil]
        exact .next (ih single fun d mem => all d (List.mem_append_left [c] mem)) digit

theorem digits?_eq_some_iff {s : List Char} {n : Nat} : digits? s = some n ↔ Digits s n := by
  rw [digits?]
  split
  · next accepted =>
      have digits := digits_ofDigitChars accepted.1 (List.all_eq_true.mp accepted.2)
      constructor
      · intro h
        exact Option.some.inj h ▸ digits
      · intro h
        exact congrArg some h.value
  · next refused =>
      constructor
      · intro h
        cases h
      · intro h
        exact absurd ⟨h.ne_nil, List.all_eq_true.mpr fun c mem => h.isDigit mem⟩ refused

theorem exists_digits {s : List Char} {v : Int} {f : Int → Int}
    (h : ((digits? s).bind fun n => some (n : Int)).map f = some v) :
    ∃ n : Nat, Digits s n ∧ f n = v := by
  obtain ⟨_, lifted, value⟩ := Option.map_eq_some_iff.mp h
  obtain ⟨n, digits, ⟨⟩⟩ := Option.bind_eq_some_iff.mp lifted
  exact ⟨n, digits?_eq_some_iff.mp digits, value⟩

theorem integer?_eq_some_iff {s : List Char} {v : Int} : integer? s = some v ↔ Literal s v := by
  constructor
  · intro h
    rw [integer?.eq_def] at h
    split at h
    · obtain ⟨n, digits, rfl⟩ := exists_digits h
      exact .minus digits
    · obtain ⟨n, digits, rfl⟩ := exists_digits h
      exact .plus digits
    · obtain ⟨n, digits, rfl⟩ := exists_digits h
      exact .plain digits
  · intro h
    cases h with
    | plus digits => rw [integer?, digits?_eq_some_iff.mpr digits]; rfl
    | minus digits => rw [integer?, digits?_eq_some_iff.mpr digits]; rfl
    | plain digits =>
        -- digits do not start with a sign
        rw [integer?.eq_def]
        split
        · exact absurd (digits.isDigit List.mem_cons_self) (by decide)
        · exact absurd (digits.isDigit List.mem_cons_self) (by decide)
        · rw [digits?_eq_some_iff.mpr digits]; rfl

theorem word?_eq_some_iff {s : List Char} {w : Int64} :
    word? s = some w ↔ Literal s w.toInt := by
  simp only [word?, Option.bind_eq_some_iff, integer?_eq_some_iff]
  constructor
  · rintro ⟨v, literal, accepted⟩
    split at accepted
    · next range =>
        have value : (Int64.ofInt v).toInt = v := Int64.toInt_ofInt_of_le range.1 range.2
        rw [← Option.some.inj accepted, value]
        exact literal
    · cases accepted
  · intro literal
    refine ⟨w.toInt, literal, ?_⟩
    rw [if_pos ⟨w.le_toInt, w.toInt_lt⟩, Int64.ofInt_toInt]

theorem Literal.ne_nil {s : List Char} {v : Int} (h : Literal s v) : s ≠ [] := by
  cases h with
  | plain digits => exact digits.ne_nil
  | plus digits => simp
  | minus digits => simp

theorem Literal.mem {s : List Char} {v : Int} (h : Literal s v) {c : Char} (mem : c ∈ s) :
    c.isDigit = true ∨ c = '+' ∨ c = '-' := by
  cases h with
  | plain digits => exact Or.inl (digits.isDigit mem)
  | plus digits =>
      rcases List.mem_cons.mp mem with sign | mem
      · exact Or.inr (Or.inl sign)
      · exact Or.inl (digits.isDigit mem)
  | minus digits =>
      rcases List.mem_cons.mp mem with sign | mem
      · exact Or.inr (Or.inr sign)
      · exact Or.inl (digits.isDigit mem)

theorem Literal.isBlank {s : List Char} {v : Int} (h : Literal s v) {c : Char} (mem : c ∈ s) :
    isBlank c = false := by
  rcases h.mem mem with digit | rfl | rfl
  · exact isBlank_of_isDigit digit
  · rfl
  · rfl

end FencedTape.Text

namespace FencedTape.Listing

open Text (Blank Padded Literal)

/-! ## The grammar -/

def StartsComment (s : List Char) : Prop := ['#'] <+: s ∨ ['/', '/'] <+: s

/-- The parts of a line: its comment starts where the first comment can start. -/
structure Commented (line body comment : List Char) : Prop where
  line_eq : line = body ++ comment
  starts : comment = [] ∨ StartsComment comment
  first : ∀ before after, line = before ++ after → before.length < body.length →
    ¬ StartsComment after

/-- Items between commas, with blanks around each of them, or no items at all. -/
inductive Separated : List Char → List (List Char) → Prop
  | none {s : List Char} (blank : Blank s) : Separated s []
  | last {s item : List Char} (padded : Padded s item) : Separated s [item]
  | more {s t item next : List Char} {items : List (List Char)} (padded : Padded s item)
      (rest : Separated t (next :: items)) : Separated (s ++ ',' :: t) (item :: next :: items)

def IsOffset (s : List Char) (w : Int64) : Prop := Literal s w.toInt

def IsByte (s : List Char) (b : UInt8) : Prop :=
  ∃ v, Literal s v ∧ -255 ≤ v ∧ v ≤ 255 ∧ v % 256 = b.toNat

/-- The instruction that a name and its operands stand for. -/
inductive Denotes : Mnemonic → List (List Char) → Instr → Prop
  | adjust {o d : List Char} {w : Int64} {b : UInt8} (offset : IsOffset o w) (byte : IsByte d b) :
      Denotes .adjust [o, d] (.act (.adjust w b))
  | select {d : List Char} {w : Int64} (delta : IsOffset d w) :
      Denotes .select [d] (.act (.select w))
  | read {o : List Char} {w : Int64} (offset : IsOffset o w) : Denotes .read [o] (.act (.read w))
  | write {o : List Char} {w : Int64} (offset : IsOffset o w) :
      Denotes .write [o] (.act (.write w))
  | set {o v : List Char} {w : Int64} {b : UInt8} (offset : IsOffset o w) (byte : IsByte v b) :
      Denotes .set [o, v] (.act (.set w b))
  | madd {o f : List Char} {w : Int64} {b : UInt8} (offset : IsOffset o w) (byte : IsByte f b) :
      Denotes .madd [o, f] (.act (.multiplyAdd w b))
  | loopOpen : Denotes .loopOpen [] .loopOpen
  | loopClose : Denotes .loopClose [] .loopClose
  | scanLeft : Denotes .scanLeft [] (.act (.scan .left))
  | scanRight : Denotes .scanRight [] (.act (.scan .right))

inductive Invocation : List Char → Instr → Prop
  | intro {name inner : List Char} {mnemonic : Mnemonic} {literals : List (List Char)}
      {instr : Instr} (named : Padded name mnemonic.text.toList)
      (separated : Separated inner literals) (denotes : Denotes mnemonic literals instr) :
      Invocation (name ++ '(' :: (inner ++ [')'])) instr

/-- `s` is `core`, blanks, and possibly one semicolon with more blanks. -/
inductive Terminated (core : List Char) : List Char → Prop
  | plain {after : List Char} (blank : Blank after) : Terminated core (core ++ after)
  | semicolon {before after : List Char} (front : Blank before) (back : Blank after) :
      Terminated core (core ++ before ++ ';' :: after)

/-! ## Comments -/

theorem Commented.unique {line body comment body' comment' : List Char}
    (left : Commented line body comment) (right : Commented line body' comment') :
    body = body' ∧ comment = comment' := by
  -- the comment of a shorter body would start inside the longer one
  have noShorter : ∀ {b c b' c' : List Char}, Commented line b c → Commented line b' c' →
      ¬ b.length < b'.length := by
    intro b c b' c' shorter longer less
    rcases shorter.starts with none | starts
    · have whole := congrArg List.length (shorter.line_eq.symm.trans longer.line_eq)
      simp only [none, List.append_nil, List.length_append] at whole
      omega
    · exact longer.first b c shorter.line_eq less starts
  have same : body.length = body'.length := by
    have notLess := noShorter left right
    have notGreater := noShorter right left
    omega
  exact List.append_inj (left.line_eq.symm.trans right.line_eq) same

theorem exists_commented (line : List Char) :
    ∃ comment, Commented line (withoutComment line) comment := by
  fun_induction withoutComment line with
  | case1 => exact ⟨[], rfl, Or.inl rfl, fun _ _ _ less => absurd less (Nat.not_lt_zero _)⟩
  | case2 rest =>
      refine ⟨_, rfl, Or.inr (Or.inl ?_), fun _ _ _ less => absurd less (Nat.not_lt_zero _)⟩
      exact List.prefix_append ['#'] rest
  | case3 rest =>
      refine ⟨_, rfl, Or.inr (Or.inr ?_), fun _ _ _ less => absurd less (Nat.not_lt_zero _)⟩
      exact List.prefix_append ['/', '/'] rest
  | case4 c s notHash notSlashes ih =>
      obtain ⟨comment, eq, starts, first⟩ := ih
      refine ⟨comment, ?_, starts, ?_⟩
      · rw [List.cons_append, ← eq]
      · intro before after cut less
        cases before with
        | nil =>
            rintro (⟨rest, hash⟩ | ⟨rest, slashes⟩)
            · exact notHash (List.cons.inj (hash.trans cut.symm)).1.symm
            · obtain ⟨head, tail⟩ := List.cons.inj (slashes.trans cut.symm)
              exact notSlashes rest head.symm tail.symm
        | cons d before =>
            exact first before after (List.cons.inj cut).2 (Nat.lt_of_succ_lt_succ less)

/-! ## Operands -/

theorem offset_eq_ok_iff {s : List Char} {w : Int64} : offset s = .ok w ↔ IsOffset s w := by
  rw [IsOffset, ← Text.word?_eq_some_iff, offset]
  split
  · next value word => simp [word]
  · next word => simp [word]

theorem byte_eq_ok_iff {s : List Char} {b : UInt8} : byte s = .ok b ↔ IsByte s b := by
  constructor
  · intro h
    cases word : offset s with
    | error e => simp [byte, word, bind, Except.bind] at h
    | ok w =>
        have literal := offset_eq_ok_iff.mp word
        simp only [byte, word, bind, Except.bind] at h
        split at h
        · next range =>
            have value := congrArg UInt8.toNat (Except.ok.inj h)
            rw [UInt8.toNat_ofNat'] at value
            exact ⟨w.toInt, literal, range.1, range.2, by omega⟩
        · cases h
  · rintro ⟨v, literal, lower, upper, residue⟩
    have value : (Int64.ofInt v).toInt = v := Int64.toInt_ofInt_of_le (by omega) (by omega)
    have word : offset s = .ok (Int64.ofInt v) := by
      rw [offset_eq_ok_iff, IsOffset, value]
      exact literal
    have read : UInt8.ofNat (v % 256).toNat = b := by
      rw [residue, Int.toNat_natCast, UInt8.ofNat_toNat]
    simp only [byte, word, bind, Except.bind, value]
    rw [if_pos ⟨lower, upper⟩, read]
    rfl

theorem bind_eq_ok_iff {α β : Type} {x : Except LineError α} {f : α → Except LineError β} {b : β} :
    (x >>= f) = .ok b ↔ ∃ a, x = .ok a ∧ f a = .ok b := by
  cases x with
  | error e => simp [bind, Except.bind]
  | ok a => simp [bind, Except.bind]

theorem one_operand_iff {s : List Char} {f : Int64 → Instr} {instr : Instr} :
    (do return f (← offset s) : Except LineError Instr) = .ok instr ↔
      ∃ w, IsOffset s w ∧ f w = instr := by
  simp only [bind_eq_ok_iff, offset_eq_ok_iff, pure, Except.pure, Except.ok.injEq]

theorem two_operands_iff {s t : List Char} {f : Int64 → UInt8 → Instr} {instr : Instr} :
    (do return f (← offset s) (← byte t) : Except LineError Instr) = .ok instr ↔
      ∃ w, IsOffset s w ∧ ∃ b, IsByte t b ∧ f w b = instr := by
  simp only [bind_eq_ok_iff, offset_eq_ok_iff, byte_eq_ok_iff, pure, Except.pure,
    Except.ok.injEq]

theorem denotes_of_assemble {mnemonic : Mnemonic} {literals : List (List Char)} {instr : Instr}
    (h : assemble mnemonic literals = .ok instr) : Denotes mnemonic literals instr := by
  revert h
  fun_cases assemble mnemonic literals with
  | case1 o d =>
      intro h
      obtain ⟨w, offset, b, byte, rfl⟩ := two_operands_iff.mp h
      exact .adjust offset byte
  | case2 d =>
      intro h
      obtain ⟨w, offset, rfl⟩ := one_operand_iff.mp h
      exact .select offset
  | case3 o =>
      intro h
      obtain ⟨w, offset, rfl⟩ := one_operand_iff.mp h
      exact .read offset
  | case4 o =>
      intro h
      obtain ⟨w, offset, rfl⟩ := one_operand_iff.mp h
      exact .write offset
  | case5 o v =>
      intro h
      obtain ⟨w, offset, b, byte, rfl⟩ := two_operands_iff.mp h
      exact .set offset byte
  | case6 o f =>
      intro h
      obtain ⟨w, offset, b, byte, rfl⟩ := two_operands_iff.mp h
      exact .madd offset byte
  | case7 => rintro ⟨⟩; exact .loopOpen
  | case8 => rintro ⟨⟩; exact .loopClose
  | case9 => rintro ⟨⟩; exact .scanLeft
  | case10 => rintro ⟨⟩; exact .scanRight
  | case11 => rintro ⟨⟩

theorem Denotes.assemble {mnemonic : Mnemonic} {literals : List (List Char)} {instr : Instr}
    (h : Denotes mnemonic literals instr) : assemble mnemonic literals = .ok instr := by
  cases h with
  | adjust offset byte | set offset byte | madd offset byte =>
      exact two_operands_iff.mpr ⟨_, offset, _, byte, rfl⟩
  | select offset | read offset | write offset => exact one_operand_iff.mpr ⟨_, offset, rfl⟩
  | loopOpen | loopClose | scanLeft | scanRight => rfl

theorem Denotes.literal {mnemonic : Mnemonic} {literals : List (List Char)} {instr : Instr}
    (h : Denotes mnemonic literals instr) {item : List Char} (mem : item ∈ literals) :
    ∃ v, Literal item v := by
  have ofByte : ∀ {s : List Char} {b : UInt8}, IsByte s b → ∃ v, Literal s v :=
    fun ⟨v, literal, _⟩ => ⟨v, literal⟩
  cases h with
  | adjust offset byte | set offset byte | madd offset byte =>
      rcases List.mem_pair.mp mem with rfl | rfl
      · exact ⟨_, offset⟩
      · exact ofByte byte
  | select offset | read offset | write offset =>
      rw [List.mem_singleton.mp mem]
      exact ⟨_, offset⟩
  | loopOpen | loopClose | scanLeft | scanRight => exact absurd mem List.not_mem_nil

theorem uncut_of_notMem {s : List Char} (absent : ',' ∉ s) :
    ∀ c ∈ s, decide (c = ',') = false := by
  intro c mem
  rw [decide_eq_false_iff_not]
  rintro rfl
  exact absent mem

theorem comma_of_isBlank {c : Char} (h : Text.isBlank c = true) : decide (c = ',') = false := by
  rw [decide_eq_false_iff_not]
  rintro rfl
  exact absurd h (by decide)

theorem comma_of_literal {s : List Char} {v : Int} (h : Literal s v) {c : Char} (mem : c ∈ s) :
    decide (c = ',') = false := by
  rw [decide_eq_false_iff_not]
  rintro rfl
  have impossible := h.mem mem
  revert impossible
  decide

theorem uncut_of_padded {s item : List Char} {v : Int} (padded : Padded s item)
    (literal : Literal item v) {c : Char} (mem : c ∈ s) : decide (c = ',') = false := by
  rcases padded.mem mem with blank | mem
  · exact comma_of_isBlank blank
  · exact comma_of_literal literal mem

theorem separated_pieces (s : List Char) :
    Separated s ((Text.pieces (· = ',') s).map Text.trim) := by
  induction length : s.length using Nat.strongRecOn generalizing s with
  | ind bound ih =>
      cases cut : Text.splitAtFirst ',' s with
      | none =>
          rw [Text.pieces_of_uncut (uncut_of_notMem (Text.splitAtFirst_eq_none_iff.mp cut))]
          exact .last (Text.padded_trim s)
      | some parts =>
          obtain ⟨first, rest⟩ := parts
          obtain ⟨rfl, absent⟩ := Text.eq_of_splitAtFirst cut
          have shorter : rest.length < bound := by
            rw [← length, List.length_append, List.length_cons]
            omega
          have tail := ih rest.length shorter rest rfl
          rw [Text.pieces_append_cut (uncut_of_notMem absent) (by decide), List.map_cons]
          cases pieces : Text.pieces (· = ',') rest with
          | nil => exact absurd pieces (Text.pieces_ne_nil _ rest)
          | cons next others =>
              rw [pieces] at tail
              exact .more (Text.padded_trim first) tail

theorem map_trim_pieces_of_separated {s item : List Char} {items : List (List Char)}
    (h : Separated s (item :: items)) (literal : ∀ i ∈ item :: items, ∃ v, Literal i v) :
    (Text.pieces (· = ',') s).map Text.trim = item :: items := by
  generalize list : item :: items = all at h literal
  induction h generalizing item items with
  | none blank => cases list
  | last padded =>
      obtain ⟨v, number⟩ := literal _ List.mem_cons_self
      rw [Text.pieces_of_uncut fun c mem => uncut_of_padded padded number mem,
        List.map_singleton, padded.trim_eq fun c mem => number.isBlank mem]
  | more padded rest ih =>
      obtain ⟨v, number⟩ := literal _ List.mem_cons_self
      rw [Text.pieces_append_cut (fun c mem => uncut_of_padded padded number mem) (by decide),
        List.map_cons, padded.trim_eq fun c mem => number.isBlank mem,
        ih rfl fun i mem => literal i (List.mem_cons_of_mem _ mem)]

/-- Cutting at the commas finds the items, whatever they are. -/
theorem separated_operands (inner : List Char) : Separated inner (operands inner) := by
  rw [operands]
  split
  · next none => exact .none (Text.trim_eq_nil_iff.mp none)
  · rw [Text.map_trim_pieces_trim fun c => comma_of_isBlank]
    exact separated_pieces inner

/-- Items that are literals are found in no other way. -/
theorem operands_of_separated {inner : List Char} {literals : List (List Char)}
    (h : Separated inner literals) (literal : ∀ item ∈ literals, ∃ v, Literal item v) :
    operands inner = literals := by
  cases literals with
  | nil =>
      cases h with
      | none blank => rw [operands, if_pos blank.trim]
  | cons item items =>
      have found := map_trim_pieces_of_separated h literal
      rw [operands, Text.map_trim_pieces_trim fun c => comma_of_isBlank, found, if_neg]
      intro none
      -- then the only item would be empty
      have blank := Text.trim_eq_nil_iff.mp none
      rw [Text.pieces_of_uncut fun c mem => comma_of_isBlank (blank c mem), List.map_singleton,
        none] at found
      obtain ⟨v, number⟩ := literal item List.mem_cons_self
      exact number.ne_nil (List.cons.inj found).1.symm

theorem Separated.mem {inner : List Char} {literals : List (List Char)}
    (h : Separated inner literals) {c : Char} (mem : c ∈ inner) :
    Text.isBlank c = true ∨ c = ',' ∨ ∃ item ∈ literals, c ∈ item := by
  induction h with
  | none blank => exact Or.inl (blank c mem)
  | last padded =>
      rcases padded.mem mem with blank | mem
      · exact Or.inl blank
      · exact Or.inr (Or.inr ⟨_, List.mem_cons_self, mem⟩)
  | more padded rest ih =>
      rcases List.mem_append.mp mem with mem | mem
      · rcases padded.mem mem with blank | mem
        · exact Or.inl blank
        · exact Or.inr (Or.inr ⟨_, List.mem_cons_self, mem⟩)
      · rcases List.mem_cons.mp mem with comma | mem
        · exact Or.inr (Or.inl comma)
        · rcases ih mem with blank | comma | ⟨item, among, mem⟩
          · exact Or.inl blank
          · exact Or.inr (Or.inl comma)
          · exact Or.inr (Or.inr ⟨item, List.mem_cons_of_mem _ among, mem⟩)

/-! ## Invocations -/

theorem readBody_eq_ok_iff {body : List Char} {instr : Instr} :
    readBody body = .ok instr ↔
      ∃ name inner after mnemonic, body = name ++ '(' :: (inner ++ ')' :: after) ∧
        '(' ∉ name ∧ ')' ∉ inner ∧ Blank after ∧ Text.trim name = mnemonic.text.toList ∧
        assemble mnemonic (operands inner) = .ok instr := by
  constructor
  · intro h
    rw [readBody] at h
    split at h
    · next name rest opened =>
        split at h
        · next inner after closed =>
            obtain ⟨rfl, noOpen⟩ := Text.eq_of_splitAtFirst opened
            obtain ⟨rfl, noClose⟩ := Text.eq_of_splitAtFirst closed
            simp only at h
            split at h
            · cases h
            · next blank =>
                split at h
                · next mnemonic known =>
                    exact ⟨name, inner, after, mnemonic, rfl, noOpen, noClose,
                      Text.trim_eq_nil_iff.mp (Classical.not_not.mp blank),
                      Mnemonic.ofText?_eq_some_iff.mp known, h⟩
                · cases h
        · cases h
    · cases h
  · rintro ⟨name, inner, after, mnemonic, rfl, noOpen, noClose, blank, named, assembled⟩
    have known : Mnemonic.ofText? (Text.trim name) = some mnemonic :=
      Mnemonic.ofText?_eq_some_iff.mpr named
    rw [readBody, Text.splitAtFirst_append noOpen]
    simp only [Text.splitAtFirst_append noClose, blank.trim, known, assembled]
    rfl

theorem readLine_eq_none_iff {line : List Char} : readLine line = .ok none ↔ body line = [] := by
  rw [readLine]
  split
  · next empty => simp [empty]
  · next c s nonempty =>
      rw [nonempty]
      cases readBody (c :: s) <;> simp [Except.map]

theorem readLine_eq_some_iff {line : List Char} {instr : Instr} :
    readLine line = .ok (some instr) ↔ readBody (body line) = .ok instr := by
  rw [readLine]
  split
  · next empty =>
      rw [empty, readBody_eq_ok_iff]
      simp
  · next c s nonempty =>
      rw [nonempty]
      cases readBody (c :: s) <;> simp [Except.map]

/-! ## Ends of lines -/

theorem exists_terminated (s : List Char) :
    ∃ before rest, Blank before ∧ s = before ++ rest ∧
      Terminated (withoutSemicolon (Text.trim s)) rest := by
  obtain ⟨before, after, front, back, eq⟩ := Text.padded_trim s
  rw [withoutSemicolon]
  split
  · next semicolon =>
      obtain ⟨core, whole⟩ := List.getLast?_eq_some_iff.mp semicolon
      obtain ⟨middle, blank, cut⟩ := Text.exists_trimEnd core
      rw [whole, List.dropLast_concat]
      refine ⟨before, _, front, ?_, .semicolon blank back⟩
      rw [← cut]
      simpa [whole] using eq
  · exact ⟨before, _, front, by rwa [List.append_assoc] at eq, .plain back⟩

theorem withoutSemicolon_trim {core before rest : List Char} (front : Blank before)
    (h : Terminated core rest) (head : ∀ c, core.head? = some c → Text.isBlank c = false)
    (last : ∀ c, core.getLast? = some c → Text.isBlank c = false ∧ c ≠ ';') :
    withoutSemicolon (Text.trim (before ++ rest)) = core := by
  have lastSolid : ∀ c, core.getLast? = some c → Text.isBlank c = false :=
    fun c atEnd => (last c atEnd).1
  cases h with
  | plain back =>
      rw [← List.append_assoc, Text.trim_surrounded front back head lastSolid, withoutSemicolon,
        if_neg fun semicolon => (last ';' semicolon).2 rfl]
  | @semicolon middle after blank back =>
      cases core with
      | nil =>
          have regroup : before ++ ([] ++ middle ++ ';' :: after) =
              (before ++ middle) ++ [';'] ++ after := by simp
          have solid : Text.trim ((before ++ middle) ++ [';'] ++ after) = [';'] :=
            Text.trim_surrounded (front.append blank) back (by simp; decide) (by simp; decide)
          rw [regroup, solid]
          rfl
      | cons c core =>
          have regroup : before ++ (c :: core ++ middle ++ ';' :: after) =
              before ++ (c :: core ++ middle ++ [';']) ++ after := by simp
          have solid : Text.trim (before ++ (c :: core ++ middle ++ [';']) ++ after) =
              c :: core ++ middle ++ [';'] :=
            Text.trim_surrounded front back head fun d atEnd => by
              rw [List.getLast?_concat] at atEnd
              rw [← Option.some.inj atEnd]
              rfl
          rw [regroup, solid, withoutSemicolon, List.getLast?_concat, if_pos rfl,
            List.dropLast_concat, Text.trimEnd_append blank, Text.trimEnd_eq_self lastSolid]

theorem Terminated.append_front {core rest : List Char} (h : Terminated core rest)
    (before : List Char) : Terminated (before ++ core) (before ++ rest) := by
  cases h with
  | plain back =>
      rw [← List.append_assoc]
      exact .plain back
  | semicolon front back =>
      rw [← List.append_assoc, ← List.append_assoc]
      exact .semicolon front back

theorem Terminated.exists_of_append {before core rest : List Char}
    (h : Terminated (before ++ core) rest) :
    ∃ rest', rest = before ++ rest' ∧ Terminated core rest' := by
  cases h with
  | plain back => exact ⟨_, by rw [List.append_assoc], .plain back⟩
  | semicolon front back =>
      exact ⟨_, by rw [List.append_assoc, List.append_assoc, ← List.append_assoc core],
        .semicolon front back⟩

/-- Blanks at the end of what is terminated may be counted with those after it. -/
theorem Terminated.of_append {core blanks rest : List Char} (blank : Blank blanks)
    (h : Terminated (core ++ blanks) rest) : Terminated core rest := by
  cases h with
  | plain back =>
      rw [List.append_assoc]
      exact .plain (blank.append back)
  | semicolon front back =>
      rw [List.append_assoc core]
      exact .semicolon (blank.append front) back

theorem body_eq_nil_iff {line : List Char} :
    body line = [] ↔ Terminated [] (withoutComment line) := by
  constructor
  · intro empty
    obtain ⟨before, rest, blank, eq, terminated⟩ := exists_terminated (withoutComment line)
    rw [← body, empty] at terminated
    have whole : Terminated ([] ++ before) (withoutComment line) := by
      have shifted := terminated.append_front before
      rwa [List.append_nil, ← eq] at shifted
    exact .of_append blank whole
  · intro terminated
    exact withoutSemicolon_trim Text.blank_nil terminated (by simp) (by simp)

theorem readBody_of_invocation {line core : List Char} {instr : Instr}
    (invocation : Invocation core instr) (terminated : Terminated core (withoutComment line)) :
    readBody (body line) = .ok instr := by
  obtain @⟨name, inner, mnemonic, literals, instr, named, separated, denotes⟩ := invocation
  obtain ⟨before, after, front, back, rfl⟩ := named
  -- the blanks in front of the name are all that reading takes off on the left
  have regroup : before ++ mnemonic.text.toList ++ after ++ '(' :: (inner ++ [')']) =
      before ++ (mnemonic.text.toList ++ after ++ '(' :: (inner ++ [')'])) := by simp
  rw [regroup] at terminated
  obtain ⟨rest, lineEq, terminated⟩ := terminated.exists_of_append
  have cut : body line = mnemonic.text.toList ++ after ++ '(' :: (inner ++ [')']) := by
    rw [body, lineEq]
    refine withoutSemicolon_trim front terminated ?_ ?_
    · intro c head
      rw [List.append_assoc, List.head?_append_of_ne_nil _ (text_ne_nil mnemonic)] at head
      exact isBlank_of_mem_text (List.mem_of_mem_head? head)
    · intro c last
      rw [← List.cons_append, ← List.append_assoc, List.getLast?_concat] at last
      rw [← Option.some.inj last]
      decide
  have noOpen : '(' ∉ mnemonic.text.toList ++ after := by
    intro mem
    rcases List.mem_append.mp mem with mem | mem
    · exact openParen_notMem_text mnemonic mem
    · exact absurd (back '(' mem) (by decide)
  have noClose : ')' ∉ inner := by
    intro mem
    rcases separated.mem mem with blank | comma | ⟨item, among, mem⟩
    · exact absurd blank (by decide)
    · exact absurd comma (by decide)
    · obtain ⟨v, number⟩ := denotes.literal among
      have impossible := number.mem mem
      revert impossible
      decide
  have trimmed : Text.trim (mnemonic.text.toList ++ after) = mnemonic.text.toList := by
    rw [Text.trim_append back]
    exact Text.trim_of_solid fun c mem => isBlank_of_mem_text mem
  rw [cut, readBody_eq_ok_iff]
  refine ⟨_, inner, [], mnemonic, rfl, noOpen, noClose, Text.blank_nil, trimmed, ?_⟩
  rw [operands_of_separated separated fun item among => denotes.literal among]
  exact denotes.assemble

theorem exists_invocation {line : List Char} {instr : Instr}
    (h : readBody (body line) = .ok instr) :
    ∃ core, Invocation core instr ∧ Terminated core (withoutComment line) := by
  obtain ⟨name, inner, after, mnemonic, cut, -, -, back, named, assembled⟩ :=
    readBody_eq_ok_iff.mp h
  obtain ⟨before, rest, front, lineEq, terminated⟩ := exists_terminated (withoutComment line)
  rw [← body, cut] at terminated
  have padded : Padded (before ++ name) mnemonic.text.toList :=
    (named ▸ Text.padded_trim name).append_front front
  have whole := terminated.append_front before
  have regroup : before ++ (name ++ '(' :: (inner ++ ')' :: after)) =
      before ++ name ++ '(' :: (inner ++ [')']) ++ after := by simp
  rw [← lineEq, regroup] at whole
  exact ⟨_, .intro padded (separated_operands inner) (denotes_of_assemble assembled),
    .of_append back whole⟩

/-! ## Reading is the grammar -/

/-- A line has one body.  It is read as nothing if its body is blank but for a semicolon, and as
an instruction exactly if its body is an invocation that stands for the instruction; every other
line is refused. -/
theorem readLine_iff_grammar (line : List Char) :
    ∃ body comment, (∀ b c, Commented line b c ↔ b = body ∧ c = comment) ∧
      (readLine line = .ok none ↔ Terminated [] body) ∧
      (∀ instr, readLine line = .ok (some instr) ↔
        ∃ core, Invocation core instr ∧ Terminated core body) ∧
      ((∃ e, readLine line = .error e) ↔
        ¬ Terminated [] body ∧ ∀ core instr, Invocation core instr → ¬ Terminated core body) := by
  obtain ⟨comment, commented⟩ := exists_commented line
  have nothing : readLine line = .ok none ↔ Terminated [] (withoutComment line) :=
    readLine_eq_none_iff.trans body_eq_nil_iff
  have something : ∀ instr, readLine line = .ok (some instr) ↔
      ∃ core, Invocation core instr ∧ Terminated core (withoutComment line) := by
    intro instr
    rw [readLine_eq_some_iff]
    constructor
    · exact exists_invocation
    · rintro ⟨core, invocation, terminated⟩
      exact readBody_of_invocation invocation terminated
  refine ⟨withoutComment line, comment, ?_, nothing, something, ?_⟩
  · intro b c
    constructor
    · intro other
      exact other.unique commented
    · rintro ⟨rfl, rfl⟩
      exact commented
  · rw [← nothing]
    constructor
    · rintro ⟨e, refused⟩
      refine ⟨by simp [refused], ?_⟩
      intro core instr invocation terminated
      have read := (something instr).mpr ⟨core, invocation, terminated⟩
      exact absurd (refused.symm.trans read) (by simp)
    · rintro ⟨notNothing, notSomething⟩
      cases result : readLine line with
      | error e => exact ⟨e, rfl⟩
      | ok found =>
          cases found with
          | none => exact absurd result notNothing
          | some instr =>
              obtain ⟨core, invocation, terminated⟩ := (something instr).mp result
              exact absurd terminated (notSomething core instr invocation)

end FencedTape.Listing
