import FencedTape.Text.Blank
import FencedTape.Text.Numeral
import Mathlib.Data.List.Basic

/-! # Texts put together and taken apart

Trimming takes off what stands around a text and nothing else (`padded_trim`), cutting gives back
what was joined, and a written number has none of the characters that anything is cut at. -/

set_option autoImplicit false

namespace FencedTape.Text

def Blank (s : List Char) : Prop := ∀ c ∈ s, isBlank c = true

/-- `s` is `core` with nothing but blanks around it. -/
def Padded (s core : List Char) : Prop :=
  ∃ before after, Blank before ∧ Blank after ∧ s = before ++ core ++ after

/-! ## Trimming -/

theorem trimStart_append {before s : List Char} (h : ∀ c ∈ before, isBlank c = true) :
    trimStart (before ++ s) = trimStart s :=
  List.dropWhile_append_of_pos h

theorem trimEnd_append {s after : List Char} (h : ∀ c ∈ after, isBlank c = true) :
    trimEnd (s ++ after) = trimEnd s := by
  have reversed : ∀ c ∈ after.reverse, isBlank c = true := by
    intro c mem
    exact h c (List.mem_reverse.mp mem)
  rw [trimEnd, List.reverse_append, List.dropWhile_append_of_pos reversed, trimEnd]

theorem trimStart_eq_self {s : List Char} (h : ∀ c, s.head? = some c → isBlank c = false) :
    trimStart s = s := by
  cases s with
  | nil => rfl
  | cons c s =>
      have solid := h c rfl
      simp [trimStart, solid]

theorem trimEnd_eq_self {s : List Char} (h : ∀ c, s.getLast? = some c → isBlank c = false) :
    trimEnd s = s := by
  have reversed : s.reverse.dropWhile isBlank = s.reverse := by
    apply trimStart_eq_self
    intro c head
    exact h c (List.head?_reverse.symm.trans head)
  rw [trimEnd, reversed, List.reverse_reverse]

theorem blank_nil : Blank [] := by
  intro c none
  exact absurd none List.not_mem_nil

theorem Blank.append {s t : List Char} (first : Blank s) (rest : Blank t) : Blank (s ++ t) := by
  intro c mem
  rcases List.mem_append.mp mem with mem | mem
  · exact first c mem
  · exact rest c mem

theorem Blank.trim {s : List Char} (h : Blank s) : trim s = [] := by
  have none : trimStart s = [] := by
    have whole := trimStart_append (s := []) h
    rwa [List.append_nil] at whole
  rw [Text.trim, none]
  rfl

/-- Trimming gives back a text that stands between blanks and has none at its two ends. -/
theorem trim_surrounded {before s after : List Char} (front : ∀ c ∈ before, isBlank c = true)
    (back : ∀ c ∈ after, isBlank c = true) (head : ∀ c, s.head? = some c → isBlank c = false)
    (last : ∀ c, s.getLast? = some c → isBlank c = false) : trim (before ++ s ++ after) = s := by
  rw [trim, List.append_assoc, trimStart_append front]
  cases s with
  | nil => exact Blank.trim back
  | cons c s =>
      rw [trimStart_eq_self (s := c :: s ++ after) head, trimEnd_append back, trimEnd_eq_self last]

theorem trim_eq_self {s : List Char} (head : ∀ c, s.head? = some c → isBlank c = false)
    (last : ∀ c, s.getLast? = some c → isBlank c = false) : trim s = s := by
  rw [trim, trimStart_eq_self head, trimEnd_eq_self last]

theorem trim_of_solid {s : List Char} (h : ∀ c ∈ s, isBlank c = false) : trim s = s :=
  trim_eq_self (fun c head => h c (List.mem_of_mem_head? head))
    (fun c last => h c (List.mem_of_getLast? last))

theorem exists_trimStart (s : List Char) :
    ∃ before, Blank before ∧ s = before ++ trimStart s := by
  refine ⟨s.takeWhile isBlank, ?_, ?_⟩
  · intro c mem
    exact List.all_eq_true.mp List.all_takeWhile c mem
  · exact List.takeWhile_append_dropWhile.symm

theorem exists_trimEnd (s : List Char) : ∃ after, Blank after ∧ s = trimEnd s ++ after := by
  obtain ⟨before, blank, eq⟩ := exists_trimStart s.reverse
  refine ⟨before.reverse, ?_, ?_⟩
  · intro c mem
    exact blank c (List.mem_reverse.mp mem)
  · have reversed := congrArg List.reverse eq
    rwa [List.reverse_reverse, List.reverse_append] at reversed

theorem padded_trim (s : List Char) : Padded s (trim s) := by
  obtain ⟨before, front, cut⟩ := exists_trimStart s
  obtain ⟨after, back, cut'⟩ := exists_trimEnd (trimStart s)
  refine ⟨before, after, front, back, ?_⟩
  rw [List.append_assoc, trim, ← cut', ← cut]

theorem trim_eq_nil_iff {s : List Char} : trim s = [] ↔ Blank s := by
  constructor
  · intro none
    obtain ⟨before, after, front, back, eq⟩ := padded_trim s
    rw [none, List.append_nil] at eq
    exact eq ▸ front.append back
  · exact Blank.trim

theorem trim_append {s after : List Char} (back : Blank after) : trim (s ++ after) = trim s := by
  obtain ⟨before, front, eq⟩ := exists_trimStart s
  cases solid : trimStart s with
  | nil =>
      rw [solid, List.append_nil] at eq
      rw [eq, (front.append back).trim, front.trim]
  | cons c rest =>
      have kept : trimStart (s ++ after) = trimStart s ++ after := by
        rw [trimStart, List.dropWhile_append, ← trimStart, solid]
        rfl
      rw [trim, kept, trimEnd_append back, trim]

theorem Padded.trim_eq {s core : List Char} (h : Padded s core)
    (solid : ∀ c ∈ core, isBlank c = false) : trim s = core := by
  obtain ⟨before, after, front, back, rfl⟩ := h
  exact trim_surrounded front back (fun c head => solid c (List.mem_of_mem_head? head))
    (fun c last => solid c (List.mem_of_getLast? last))

theorem Padded.mem {s core : List Char} (h : Padded s core) {c : Char} (mem : c ∈ s) :
    isBlank c = true ∨ c ∈ core := by
  obtain ⟨before, after, front, back, rfl⟩ := h
  simp only [List.mem_append] at mem
  rcases mem with (mem | mem) | mem
  · exact Or.inl (front c mem)
  · exact Or.inr mem
  · exact Or.inl (back c mem)

theorem Padded.append_front {s core more : List Char} (h : Padded s core) (blank : Blank more) :
    Padded (more ++ s) core := by
  obtain ⟨before, after, front, back, rfl⟩ := h
  exact ⟨more ++ before, after, blank.append front, back, by simp⟩

/-! ## Cutting -/

theorem pieces_of_uncut {p : Char → Bool} {s : List Char} (h : ∀ c ∈ s, p c = false) :
    pieces p s = [s] := by
  induction s with
  | nil => rfl
  | cons c s ih =>
      have uncut := h c List.mem_cons_self
      have rest := ih fun d mem => h d (List.mem_cons_of_mem c mem)
      simp [pieces, uncut, rest]

theorem pieces_append {p : Char → Bool} {cut : Char} (cuts : p cut = true) (s t : List Char) :
    pieces p (s ++ cut :: t) = pieces p s ++ pieces p t := by
  induction s with
  | nil => simp [pieces, cuts]
  | cons c s ih =>
      rw [List.cons_append, pieces, pieces, ih]
      split
      · rfl
      · cases parts : pieces p s with
        | nil => exact absurd parts (pieces_ne_nil p s)
        | cons first rest => rfl

theorem pieces_append_cut {p : Char → Bool} {s t : List Char} {cut : Char}
    (h : ∀ c ∈ s, p c = false) (cuts : p cut = true) :
    pieces p (s ++ cut :: t) = s :: pieces p t := by
  rw [pieces_append cuts, pieces_of_uncut h]
  rfl

/-- A blank in front of a text is lost when its pieces are trimmed. -/
theorem map_trim_pieces_cons {p : Char → Bool} {blank : Char} (s : List Char)
    (isBlank : isBlank blank = true) (uncut : p blank = false) :
    (pieces p (blank :: s)).map trim = (pieces p s).map trim := by
  cases cut : pieces p s with
  | nil => exact absurd cut (pieces_ne_nil p s)
  | cons first rest =>
      have trimmed : trim (blank :: first) = trim first := by
        simp [trim, trimStart, isBlank]
      simp [pieces, uncut, cut, trimmed]

/-- A text without cuts goes to the last piece of the text that it is put after. -/
theorem exists_pieces_append (p : Char → Bool) (s : List Char) {after : List Char}
    (uncut : ∀ c ∈ after, p c = false) :
    ∃ front last, pieces p s = front ++ [last] ∧
      pieces p (s ++ after) = front ++ [last ++ after] := by
  induction s with
  | nil => exact ⟨[], [], rfl, pieces_of_uncut uncut⟩
  | cons c s ih =>
      obtain ⟨front, last, cut, cut'⟩ := ih
      by_cases cuts : p c = true
      · exact ⟨[] :: front, last, by simp [pieces, cuts, cut], by simp [pieces, cuts, cut']⟩
      · cases front with
        | nil => exact ⟨[], c :: last, by simp [pieces, cuts, cut], by simp [pieces, cuts, cut']⟩
        | cons first front =>
            exact ⟨(c :: first) :: front, last, by simp [pieces, cuts, cut],
              by simp [pieces, cuts, cut']⟩

/-- It makes no difference to trimmed pieces whether the whole has been trimmed before. -/
theorem map_trim_pieces_trim {p : Char → Bool} (uncut : ∀ c, isBlank c = true → p c = false)
    (s : List Char) : (pieces p (trim s)).map trim = (pieces p s).map trim := by
  obtain ⟨before, after, front, back, eq⟩ := padded_trim s
  have behind : (pieces p (trim s ++ after)).map trim = (pieces p (trim s)).map trim := by
    obtain ⟨parts, last, cut, cut'⟩ :=
      exists_pieces_append p (trim s) fun c mem => uncut c (back c mem)
    rw [cut, cut', List.map_append, List.map_append, List.map_singleton, List.map_singleton,
      trim_append back]
  have ahead : ∀ lead, Blank lead →
      (pieces p (lead ++ (trim s ++ after))).map trim = (pieces p (trim s ++ after)).map trim := by
    intro lead blank
    induction lead with
    | nil => rfl
    | cons c lead ih =>
        have here := blank c List.mem_cons_self
        rw [List.cons_append, map_trim_pieces_cons _ here (uncut c here)]
        exact ih fun d mem => blank d (List.mem_cons_of_mem c mem)
  have whole := (ahead before front).trans behind
  rw [← List.append_assoc, ← eq] at whole
  exact whole.symm

theorem splitAtFirst_append {c : Char} {before after : List Char} (h : c ∉ before) :
    splitAtFirst c (before ++ c :: after) = some (before, after) := by
  induction before with
  | nil => simp [splitAtFirst]
  | cons d before ih =>
      have other : d ≠ c := by
        rintro rfl
        exact h List.mem_cons_self
      have rest := ih fun mem => h (List.mem_cons_of_mem d mem)
      simp [splitAtFirst, other, rest]

/-! ## Written numbers -/

theorem isDigit_of_mem_ofNat {n : Nat} {c : Char} (h : c ∈ ofNat n) : c.isDigit = true :=
  Nat.isDigit_of_mem_toDigits (by omega) (by omega) h

theorem ofInt_ne_nil (v : Int) : ofInt v ≠ [] := by
  cases v with
  | ofNat n => exact Nat.toDigits_ne_nil
  | negSucc n => simp [ofInt]

theorem mem_ofInt {v : Int} {c : Char} (h : c ∈ ofInt v) : c.isDigit = true ∨ c = '-' := by
  cases v with
  | ofNat n => exact Or.inl (isDigit_of_mem_ofNat h)
  | negSucc n =>
      rw [ofInt, List.mem_cons] at h
      rcases h with sign | digit
      · exact Or.inr sign
      · exact Or.inl (isDigit_of_mem_ofNat digit)

theorem isBlank_of_isDigit {c : Char} (h : c.isDigit = true) : isBlank c = false := by
  have range : 48 ≤ c.toNat ∧ c.toNat ≤ 57 := by
    simp only [Char.isDigit, Bool.and_eq_true, decide_eq_true_eq] at h
    exact h
  simp [isBlank]
  omega

/-- Written numbers have no blanks in them. -/
theorem isBlank_of_mem_ofInt {v : Int} {c : Char} (h : c ∈ ofInt v) : isBlank c = false := by
  rcases mem_ofInt h with digit | rfl
  · exact isBlank_of_isDigit digit
  · rfl

end FencedTape.Text
