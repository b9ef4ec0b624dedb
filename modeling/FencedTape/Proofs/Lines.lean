import FencedTape.Text.Blank
import FencedTape.Text.Bytes
import Mathlib.Data.List.Basic

/-! # Lines of an encoded text

`encode` writes a text as UTF-8, and `decode?` reads exactly what it writes (`decode?_eq_some_iff`).
The byte of a line feed occurs in no other character, so the first line of the bytes is the first
line of the text (`splitLine_encode`). -/

set_option autoImplicit false

namespace FencedTape.Text

def encode (s : List Char) : List UInt8 := s.flatMap String.utf8EncodeChar

/-! ## Encoding -/

@[simp] theorem encode_nil : encode [] = [] := rfl

theorem encode_cons (c : Char) (s : List Char) :
    encode (c :: s) = String.utf8EncodeChar c ++ encode s := rfl

theorem encode_eq_nil_iff {s : List Char} : encode s = [] ↔ s = [] := by
  cases s with
  | nil => simp
  | cons c s => simp [encode_cons, String.utf8EncodeChar_ne_nil]

theorem decode?_eq_some_iff {bytes : List UInt8} {s : List Char} :
    decode? bytes = some s ↔ bytes = encode s := by
  constructor
  · intro decoded
    obtain ⟨chars, valid, rfl⟩ := Option.map_eq_some_iff.mp decoded
    have isSome : bytes.toByteArray.utf8Decode?.isSome = true := by rw [valid]; rfl
    have written := ByteArray.utf8Encode_get_utf8Decode? (h := isSome)
    simp only [valid, Option.get_some] at written
    have same := congrArg (fun array => array.data.toList) written
    simpa [List.utf8Encode, encode] using same.symm
  · rintro rfl
    have read := List.utf8Decode?_utf8Encode (l := s)
    rw [List.utf8Encode] at read
    rw [decode?, encode, read]
    rfl

/-- The byte of a line feed is in the encoding of no other character.  All bytes of a character that
takes several have their highest bit set. -/
theorem eq_lineFeed_iff_of_mem {c : Char} {b : UInt8} (mem : b ∈ String.utf8EncodeChar c) :
    b = 10 ↔ c = '\n' := by
  have byte : b = 10 ↔ b.toNat = 10 := UInt8.toNat_inj.symm
  have char : c = '\n' ↔ c.val.toNat = 10 := by
    rw [← Char.val_inj, ← UInt32.toNat_inj]
    rfl
  rw [byte, char]
  revert mem
  fun_cases String.utf8EncodeChar c with
  | case1 v single =>
      intro mem
      have eq : b = UInt8.ofNat v := by simpa using mem
      rw [eq, UInt8.toNat_ofNat']
      omega
  | case2 v large =>
      intro mem
      simp only [List.mem_cons, List.not_mem_nil, or_false] at mem
      rcases mem with rfl | rfl <;> simp only [UInt8.toNat_ofNat'] <;> omega
  | case3 v large =>
      intro mem
      simp only [List.mem_cons, List.not_mem_nil, or_false] at mem
      rcases mem with rfl | rfl | rfl <;> simp only [UInt8.toNat_ofNat'] <;> omega
  | case4 v large =>
      intro mem
      simp only [List.mem_cons, List.not_mem_nil, or_false] at mem
      rcases mem with rfl | rfl | rfl | rfl <;> simp only [UInt8.toNat_ofNat'] <;> omega

/-! ## Lines -/

theorem flatten_lines (s : List Char) : (lines s).flatten = s := by
  fun_induction lines s with
  | case1 => rfl
  | case2 s ih => simp [ih]
  | case3 c s feed below ih => simpa [below] using ih
  | case4 c s feed first rest below ih => simpa [below] using ih

theorem length_lines_le (s : List Char) : (lines s).length ≤ (encode s).length := by
  have size : ∀ c s, (encode s).length + 1 ≤ (encode (c :: s)).length := by
    intro c s
    have pos := c.utf8Size_pos
    rw [encode_cons, List.length_append, String.length_utf8EncodeChar]
    omega
  fun_induction lines s with
  | case1 => exact Nat.le_refl 0
  | case2 s ih => exact Nat.le_trans (Nat.succ_le_succ ih) (size '\n' s)
  | case3 c s feed below ih => exact Nat.le_trans (Nat.le_add_left 1 _) (size c s)
  | case4 c s feed first rest below ih =>
      rw [below] at ih
      exact Nat.le_trans ih (Nat.le_of_succ_le (size c s))

theorem splitLine_append_of_not_mem {front : List UInt8} (back : List UInt8)
    (plain : 10 ∉ front) :
    splitLine (front ++ back) = (front ++ (splitLine back).1, (splitLine back).2) := by
  induction front with
  | nil => rfl
  | cons b front ih =>
      have other : b ≠ 10 := fun eq => plain (eq ▸ List.mem_cons_self)
      have rest := ih fun mem => plain (List.mem_cons_of_mem b mem)
      rw [List.cons_append, splitLine, if_neg other, rest]
      rfl

/-- Taking the first line off a text takes it off the bytes. -/
theorem splitLine_encode {s line : List Char} {rest : List (List Char)}
    (cut : lines s = line :: rest) :
    ∃ t, s = line ++ t ∧ lines t = rest ∧ splitLine (encode s) = (encode line, encode t) := by
  induction s generalizing line rest with
  | nil => cases cut
  | cons c s ih =>
      rw [lines] at cut
      by_cases feed : c = '\n'
      · subst feed
        rw [if_pos rfl] at cut
        cases cut
        exact ⟨s, rfl, rfl, rfl⟩
      · rw [if_neg feed] at cut
        have plain : 10 ∉ String.utf8EncodeChar c := fun mem =>
          feed ((eq_lineFeed_iff_of_mem mem).mp rfl)
        cases below : lines s with
        | nil =>
            rw [below] at cut
            cases cut
            have whole := flatten_lines s
            rw [below] at whole
            subst whole
            exact ⟨[], rfl, rfl, splitLine_append_of_not_mem [] plain⟩
        | cons first more =>
            rw [below] at cut
            cases cut
            obtain ⟨t, rfl, tail, split⟩ := ih below
            refine ⟨t, rfl, tail, ?_⟩
            rw [encode_cons, splitLine_append_of_not_mem _ plain, split]
            rfl

end FencedTape.Text
