/-! # Blank characters

The characters that count as blank everywhere in the library, and the three uses made of them:
trimming a text, cutting it at the characters of a class, and listing its words.  Texts are
lists of characters here. -/

set_option autoImplicit false

namespace FencedTape.Text

/-- The twenty-five characters with the Unicode property `White_Space`. -/
def isBlank (c : Char) : Bool :=
  let n := c.toNat
  (0x0009 ≤ n && n ≤ 0x000D) || n == 0x0020 || n == 0x0085 || n == 0x00A0 || n == 0x1680 ||
    (0x2000 ≤ n && n ≤ 0x200A) || n == 0x2028 || n == 0x2029 || n == 0x202F || n == 0x205F ||
    n == 0x3000

def trimStart (s : List Char) : List Char := s.dropWhile isBlank

def trimEnd (s : List Char) : List Char := (s.reverse.dropWhile isBlank).reverse

def trim (s : List Char) : List Char := trimEnd (trimStart s)

/-- Cuts a text at every character of the class `p`; the cutting characters are dropped, so there
is always one piece more than there are cuts. -/
def pieces (p : Char → Bool) : List Char → List (List Char)
  | [] => [[]]
  | c :: s =>
      if p c then [] :: pieces p s
      else match pieces p s with
        | [] => [[c]]
        | first :: rest => (c :: first) :: rest

/-- The lines of a text, each with the line feed that ends it.  The last need not have one. -/
def lines : List Char → List (List Char)
  | [] => []
  | c :: s =>
      if c = '\n' then [c] :: lines s
      else match lines s with
        | [] => [[c]]
        | first :: rest => (c :: first) :: rest

/-- A line without its ending, which is a line feed or a carriage return and a line feed. -/
def withoutEnding (line : List Char) : List Char :=
  if line.getLast? = some '\n' then
    let line := line.dropLast
    if line.getLast? = some '\r' then line.dropLast else line
  else line

def words (s : List Char) : List (List Char) := (pieces isBlank s).filter fun w => !w.isEmpty

def splitAtFirst (c : Char) : List Char → Option (List Char × List Char)
  | [] => none
  | d :: s =>
      if d = c then some ([], s)
      else (splitAtFirst c s).map fun (before, after) => (d :: before, after)

theorem pieces_ne_nil (p : Char → Bool) (s : List Char) : pieces p s ≠ [] := by
  cases s with
  | nil => simp [pieces]
  | cons c s =>
      rw [pieces]
      split
      · simp
      · split <;> simp

theorem length_pieces (p : Char → Bool) (s : List Char) :
    (pieces p s).length = s.countP p + 1 := by
  induction s with
  | nil => rfl
  | cons c s ih =>
      rw [pieces]
      split
      · next hc => simp [ih, hc]
      · next hc =>
          split
          · next h => exact absurd h (pieces_ne_nil p s)
          · next h => rw [h] at ih; simpa [hc] using ih

theorem eq_of_splitAtFirst {c : Char} {s before after : List Char}
    (h : splitAtFirst c s = some (before, after)) :
    s = before ++ c :: after ∧ c ∉ before := by
  induction s generalizing before with
  | nil => simp [splitAtFirst] at h
  | cons d s ih =>
      rw [splitAtFirst] at h
      split at h
      · next hd =>
          obtain ⟨rfl, rfl⟩ := Prod.mk.inj (Option.some.inj h)
          simp [hd]
      · next hd =>
          obtain ⟨⟨b, a⟩, hs, heq⟩ := Option.map_eq_some_iff.1 h
          obtain ⟨rfl, rfl⟩ := Prod.mk.inj heq
          obtain ⟨rfl, hb⟩ := ih hs
          exact ⟨rfl, by simp [hb, Ne.symm hd]⟩

theorem splitAtFirst_eq_none_iff {c : Char} {s : List Char} :
    splitAtFirst c s = none ↔ c ∉ s := by
  induction s with
  | nil => simp [splitAtFirst]
  | cons d s ih =>
      rw [splitAtFirst]
      split
      · next hd => simp [hd]
      · next hd => simp [ih, Ne.symm hd]

end FencedTape.Text
