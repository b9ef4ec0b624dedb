/-! # Decimal numerals

Reading and writing integers.  A numeral is an optional sign and one or more of the digits
`0` to `9`; leading zeros are allowed, separators are not.  What a reader accepts is then bounded
by the range of its type.  Main statements: writing a number and reading it gives it back. -/

set_option autoImplicit false

namespace FencedTape.Text

def digits? (s : List Char) : Option Nat :=
  if s ≠ [] ∧ s.all Char.isDigit then some (Nat.ofDigitChars 10 s 0) else none

/-- A numeral that may start with `+` and whose value is below `bound`. -/
def natural? (bound : Nat) (s : List Char) : Option Nat :=
  let unsigned := match s with
    | '+' :: rest => rest
    | _ => s
  (digits? unsigned).filter (· < bound)

/-- A numeral that may start with `+` or `-`. -/
def integer? : List Char → Option Int
  | '-' :: s => (digits? s).map fun n => -(n : Int)
  | '+' :: s => (digits? s).map fun n => (n : Int)
  | s => (digits? s).map fun n => (n : Int)

def word? (s : List Char) : Option Int64 :=
  (integer? s).bind fun v =>
    if -0x8000000000000000 ≤ v ∧ v < 0x8000000000000000 then some (Int64.ofInt v) else none

/-- The digits of a number, the highest first, without leading zeros. -/
def ofNat (n : Nat) : List Char := Nat.toDigits 10 n

def ofInt : Int → List Char
  | .ofNat n => ofNat n
  | .negSucc n => '-' :: ofNat (n + 1)

theorem digits?_ofNat (n : Nat) : digits? (ofNat n) = some n := by
  have hne : ofNat n ≠ [] := Nat.toDigits_ne_nil
  have hall : (ofNat n).all Char.isDigit = true := by
    rw [List.all_eq_true]
    exact fun c hc => Nat.isDigit_of_mem_toDigits (by omega) (by omega) hc
  rw [digits?, if_pos ⟨hne, hall⟩]
  exact congrArg some Nat.ofDigitChars_ten_toDigits

theorem head?_ofNat_isDigit (n : Nat) {c : Char} {s : List Char} (h : ofNat n = c :: s) :
    c.isDigit = true :=
  have mem : c ∈ Nat.toDigits 10 n := by rw [show Nat.toDigits 10 n = c :: s from h]; simp
  Nat.isDigit_of_mem_toDigits (by omega) (by omega) mem

theorem integer?_ofNat (n : Nat) : integer? (ofNat n) = some (n : Int) := by
  have key := digits?_ofNat n
  rw [integer?.eq_def]
  split
  · next h => exact absurd (head?_ofNat_isDigit n h) (by decide)
  · next h => exact absurd (head?_ofNat_isDigit n h) (by decide)
  · simp [key]

theorem integer?_ofInt (v : Int) : integer? (ofInt v) = some v := by
  cases v with
  | ofNat n => exact integer?_ofNat n
  | negSucc n =>
      rw [ofInt, integer?, digits?_ofNat]
      simp [Int.negSucc_eq]

theorem word?_ofInt (w : Int64) : word? (ofInt w.toInt) = some w := by
  have range : -0x8000000000000000 ≤ w.toInt ∧ w.toInt < 0x8000000000000000 :=
    ⟨w.le_toInt, w.toInt_lt⟩
  rw [word?, integer?_ofInt, Option.bind_some, if_pos range, Int64.ofInt_toInt]

end FencedTape.Text
