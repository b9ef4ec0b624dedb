import FencedTape.Listing
import FencedTape.Proofs.Text

/-! # Line endings do not matter to a listing

A line of a listing ends in a line feed, with or without a carriage return before it, and the last
line need not end at all.  Reading a listing comes to reading what is between its line feeds
(`read_eq`): a carriage return is a blank at the end of a line, and what follows the last line feed
holds no instruction if it is empty. -/

set_option autoImplicit false

namespace FencedTape

namespace Text

theorem lines_append {s : List Char} (plain : '\n' ∉ s) (t : List Char) :
    lines (s ++ '\n' :: t) = (s ++ ['\n']) :: lines t := by
  induction s with
  | nil => simp [lines]
  | cons c s ih =>
      have other : c ≠ '\n' := fun eq => plain (eq ▸ List.mem_cons_self)
      have rest := ih fun mem => plain (List.mem_cons_of_mem c mem)
      rw [List.cons_append, lines, if_neg other, rest, List.cons_append]

theorem lines_of_plain {s : List Char} (plain : '\n' ∉ s) (nonempty : s ≠ []) :
    lines s = [s] := by
  induction s with
  | nil => exact absurd rfl nonempty
  | cons c s ih =>
      have other : c ≠ '\n' := fun eq => plain (eq ▸ List.mem_cons_self)
      rw [lines, if_neg other]
      cases s with
      | nil => rfl
      | cons d s => rw [ih (fun mem => plain (List.mem_cons_of_mem c mem)) (List.cons_ne_nil d s)]

theorem withoutEnding_append (s : List Char) :
    withoutEnding (s ++ ['\n']) = if s.getLast? = some '\r' then s.dropLast else s := by
  rw [withoutEnding, List.getLast?_concat, if_pos rfl, List.dropLast_concat]

theorem withoutEnding_of_plain {s : List Char} (plain : '\n' ∉ s) : withoutEnding s = s := by
  rw [withoutEnding, if_neg]
  intro last
  exact plain (List.mem_of_getLast? last)

end Text

namespace Listing

theorem withoutComment_append_return (s : List Char) :
    withoutComment (s ++ ['\r']) = withoutComment s ++ ['\r'] ∨
      withoutComment (s ++ ['\r']) = withoutComment s := by
  fun_induction withoutComment s with
  | case1 => exact Or.inl rfl
  | case2 s => exact Or.inr rfl
  | case3 s => exact Or.inr rfl
  | case4 c s hash slashes ih =>
      have kept : withoutComment (c :: (s ++ ['\r'])) = c :: withoutComment (s ++ ['\r']) := by
        rw [withoutComment]
        · exact hash
        · intro t slash next
          cases s with
          | nil => cases next
          | cons d s =>
              obtain ⟨rfl, -⟩ := List.cons.inj next
              exact slashes s slash rfl
      rw [List.cons_append, kept]
      rcases ih with ih | ih
      · exact Or.inl (by rw [ih, List.cons_append])
      · exact Or.inr (by rw [ih])

theorem readLine_append_return (s : List Char) : readLine (s ++ ['\r']) = readLine s := by
  have blank : Text.Blank ['\r'] := by
    intro c mem
    rw [List.mem_singleton.mp mem]
    rfl
  have same : body (s ++ ['\r']) = body s := by
    rw [body, body]
    rcases withoutComment_append_return s with kept | dropped
    · rw [kept, Text.trim_append blank]
    · rw [dropped]
  rw [readLine, readLine, same]

theorem readLine_withoutEnding (s : List Char) :
    readLine (Text.withoutEnding (s ++ ['\n'])) = readLine s := by
  rw [Text.withoutEnding_append]
  split
  · next last =>
      obtain ⟨init, rfl⟩ := List.getLast?_eq_some_iff.mp last
      rw [List.dropLast_concat, readLine_append_return]
  · rfl

theorem readLines_withoutEnding (number : Nat) (text : List Char) :
    readLines number ((Text.lines text).map Text.withoutEnding) =
      readLines number (Text.pieces (· = '\n') text) := by
  have uncut {line : List Char} (plain : '\n' ∉ line) :
      ∀ c ∈ line, decide (c = '\n') = false := by
    intro c mem
    rw [decide_eq_false_iff_not]
    rintro rfl
    exact plain mem
  -- by induction on what follows the first line feed
  induction length : text.length using Nat.strongRecOn generalizing text number with
  | ind length' ih =>
      cases cut : Text.splitAtFirst '\n' text with
      | none =>
          have plain := Text.splitAtFirst_eq_none_iff.mp cut
          rw [Text.pieces_of_uncut (uncut plain)]
          cases text with
          | nil => rfl
          | cons c s =>
              rw [Text.lines_of_plain plain (List.cons_ne_nil c s), List.map_singleton,
                Text.withoutEnding_of_plain plain]
      | some parts =>
          obtain ⟨line, rest⟩ := parts
          obtain ⟨rfl, plain⟩ := Text.eq_of_splitAtFirst cut
          have shorter : rest.length < length' := by
            rw [← length, List.length_append, List.length_cons]
            omega
          rw [Text.lines_append plain, Text.pieces_append_cut (uncut plain) (by decide),
            List.map_cons, readLines, readLines, readLine_withoutEnding,
            ih rest.length shorter _ rest rfl]

theorem read_eq (text : List Char) :
    read text = readLines 1 (Text.pieces (· = '\n') text) :=
  readLines_withoutEnding 1 text

end Listing

end FencedTape
