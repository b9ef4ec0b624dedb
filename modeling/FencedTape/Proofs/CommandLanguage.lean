import FencedTape.Proofs.Grammar
import FencedTape.Shell.Command

/-! # The language of commands

The words of a line are its maximal runs of characters that are not blank (`Text.Spaced`).  The
first of them has to be in the vocabulary, which tells how many arguments follow and what they stand
for, and `Command.Verdict` says what becomes of a line with given words.

Reading a line cuts it at each blank and drops the empty pieces.  A blank separates words wherever
it stands (`words_append`), so what is left are the words (`Spaced.words_eq`).  The same holds
for the vocabulary, the numerals and the arguments: what is read is what the language has, and what
is refused is refused for the reason that the language gives. -/

set_option autoImplicit false

namespace FencedTape.Text

/-- The words of a text.  Each has blanks or the end of the text on both sides. -/
inductive Spaced : List Char → List (List Char) → Prop
  | none {gap : List Char} (blank : Blank gap) : Spaced gap []
  | word {gap word rest : List Char} {words : List (List Char)} (blank : Blank gap)
      (nonempty : word ≠ []) (solid : ∀ c ∈ word, isBlank c = false)
      (ends : ∀ c, rest.head? = some c → isBlank c = true) (more : Spaced rest words) :
      Spaced (gap ++ (word ++ rest)) (word :: words)

inductive Numeral : List Char → Nat → Prop
  | plain {s : List Char} {n : Nat} (digits : Digits s n) : Numeral s n
  | plus {s : List Char} {n : Nat} (digits : Digits s n) : Numeral ('+' :: s) n

/-! ## Words -/

theorem words_append {blank : Char} (cuts : isBlank blank = true) (s t : List Char) :
    words (s ++ blank :: t) = words s ++ words t := by
  rw [words, pieces_append cuts, List.filter_append]
  rfl

theorem words_cons_blank {blank : Char} (cuts : isBlank blank = true) (s : List Char) :
    words (blank :: s) = words s :=
  words_append cuts [] s

theorem words_append_of_blank {gap : List Char} (blank : Blank gap) (s : List Char) :
    words (gap ++ s) = words s := by
  induction gap with
  | nil => rfl
  | cons c gap ih =>
      rw [List.cons_append, words_cons_blank (blank c List.mem_cons_self)]
      exact ih fun d mem => blank d (List.mem_cons_of_mem c mem)

theorem words_of_solid {word : List Char} (nonempty : word ≠ [])
    (solid : ∀ c ∈ word, isBlank c = false) : words word = [word] := by
  simp [words, pieces_of_uncut solid, nonempty]

theorem Spaced.words_eq {s : List Char} {ws : List (List Char)} (h : Spaced s ws) :
    words s = ws := by
  induction h with
  | @none gap blank =>
      have all := words_append_of_blank blank []
      rwa [List.append_nil] at all
  | @word gap word rest ws blank nonempty solid ends more ih =>
      rw [words_append_of_blank blank]
      cases rest with
      | nil =>
          rw [List.append_nil, words_of_solid nonempty solid, ← ih]
          rfl
      | cons c rest =>
          have cuts := ends c rfl
          rw [words_cons_blank cuts] at ih
          rw [words_append cuts, words_of_solid nonempty solid, ih]
          rfl

theorem Spaced.cons_blank {c : Char} {s : List Char} {ws : List (List Char)} (h : Spaced s ws)
    (blank : isBlank c = true) : Spaced (c :: s) ws := by
  have front : ∀ {gap : List Char}, Blank gap → Blank (c :: gap) := by
    intro gap rest d mem
    rcases List.mem_cons.mp mem with rfl | mem
    · exact blank
    · exact rest d mem
  cases h with
  | none gap => exact .none (front gap)
  | word gap nonempty solid ends more => exact .word (front gap) nonempty solid ends more

/-- A character that is not blank starts a word, or continues the one that it stands before. -/
theorem Spaced.cons_solid {c : Char} {s : List Char} {ws : List (List Char)} (h : Spaced s ws)
    (solid : isBlank c = false) : ∃ ws', Spaced (c :: s) ws' := by
  have alone : ∀ d ∈ [c], isBlank d = false := by
    intro d mem
    exact List.mem_singleton.mp mem ▸ solid
  cases h with
  | none gap =>
      refine ⟨[[c]], .word blank_nil (List.cons_ne_nil c []) alone ?_ (.none gap)⟩
      intro d head
      exact gap d (List.mem_of_mem_head? head)
  | @word gap word rest ws blank nonempty letters ends more =>
      cases gap with
      | nil =>
          refine ⟨(c :: word) :: ws, .word blank_nil (List.cons_ne_nil c word) ?_ ends more⟩
          intro d mem
          rcases List.mem_cons.mp mem with rfl | mem
          · exact solid
          · exact letters d mem
      | cons b gap =>
          refine ⟨[c] :: word :: ws, .word blank_nil (List.cons_ne_nil c []) alone ?_
            (.word blank nonempty letters ends more)⟩
          intro d head
          cases head
          exact blank b List.mem_cons_self

theorem exists_spaced (s : List Char) : ∃ ws, Spaced s ws := by
  induction s with
  | nil => exact ⟨[], .none blank_nil⟩
  | cons c s ih =>
      obtain ⟨ws, spaced⟩ := ih
      cases blank : isBlank c with
      | true => exact ⟨ws, spaced.cons_blank blank⟩
      | false => exact spaced.cons_solid blank

/-! ## Numerals -/

theorem natural?_eq_some_iff {bound n : Nat} {s : List Char} :
    natural? bound s = some n ↔ Numeral s n ∧ n < bound := by
  simp only [natural?, Option.filter_eq_some_iff, decide_eq_true_eq, digits?_eq_some_iff]
  apply and_congr_left
  intro _
  constructor
  · intro digits
    split at digits
    · exact .plus digits
    · exact .plain digits
  · intro numeral
    cases numeral with
    | plus digits => exact digits
    | plain digits =>
        split
        · exact absurd (digits.isDigit List.mem_cons_self) (by decide)
        · exact digits

end FencedTape.Text

namespace FencedTape.Command

open Text

/-- The spellings of each command, its name and the alias if there is one, and what it takes. -/
def vocabulary : List (List String × Form) :=
  [(["help", "h"], .plain .help),
   (["quit", "q"], .plain .quit),
   (["run", "r"], .plain (.ask .run)),
   (["step", "s"], .plain (.ask .step)),
   (["break", "b"], .address .setBreakpoint),
   (["delete", "d"], .address .deleteBreakpoint),
   (["print", "p"], .address .peek),
   (["jump", "j"], .address .jump),
   (["select"], .address .select),
   (["assign", "a"], .addressAndByte .poke)]

def Form.arity : Form → Nat
  | .plain _ => 0
  | .address _ => 1
  | .addressAndByte _ => 2

def Names (word : List Char) (form : Form) : Prop :=
  ∃ spellings, (spellings, form) ∈ vocabulary ∧ String.ofList word ∈ spellings

def IsAddress (word : List Char) (n : Nat) : Prop := Numeral word n ∧ n < 0x10000000000000000

def IsByte (word : List Char) (b : UInt8) : Prop := Numeral word b.toNat

inductive Verdict (line : String) : List (List Char) → Except CommandError Command → Prop
  | empty : Verdict line [] (.error (.unrecognized line))
  | unnamed {word : List Char} {arguments : List (List Char)}
      (unknown : ∀ form, ¬ Names word form) :
      Verdict line (word :: arguments) (.error (.unrecognized line))
  | badSyntax {word : List Char} {arguments : List (List Char)} {form : Form}
      (names : Names word form) (count : arguments.length ≠ form.arity) :
      Verdict line (word :: arguments) (.error .badSyntax)
  | badAddress {word first : List Char} {more : List (List Char)} {form : Form}
      (names : Names word form) (count : (first :: more).length = form.arity)
      (refused : ∀ n, ¬ IsAddress first n) :
      Verdict line (word :: first :: more) (.error (.badAddress (String.ofList first)))
  | badByte {word first second : List Char} {make : Nat → UInt8 → Request} {n : Nat}
      (names : Names word (.addressAndByte make)) (address : IsAddress first n)
      (refused : ∀ b, ¬ IsByte second b) :
      Verdict line [word, first, second] (.error (.badByte (String.ofList second)))
  | plain {word : List Char} {command : Command} (names : Names word (.plain command)) :
      Verdict line [word] (.ok command)
  | address {word first : List Char} {make : Nat → Request} {n : Nat}
      (names : Names word (.address make)) (address : IsAddress first n) :
      Verdict line [word, first] (.ok (.ask (make n)))
  | addressAndByte {word first second : List Char} {make : Nat → UInt8 → Request} {n : Nat}
      {b : UInt8} (names : Names word (.addressAndByte make)) (address : IsAddress first n)
      (byte : IsByte second b) : Verdict line [word, first, second] (.ok (.ask (make n b)))

/-! ## The vocabulary -/

theorem form?_of_mem {spellings : List String} {form : Form}
    (entry : (spellings, form) ∈ vocabulary) {s : String} (spelled : s ∈ spellings) :
    form? s = some form := by
  simp only [vocabulary, List.mem_cons, Prod.mk.injEq, List.not_mem_nil, or_false] at entry
  rcases entry with ⟨rfl, rfl⟩ | ⟨rfl, rfl⟩ | ⟨rfl, rfl⟩ | ⟨rfl, rfl⟩ | ⟨rfl, rfl⟩ |
    ⟨rfl, rfl⟩ | ⟨rfl, rfl⟩ | ⟨rfl, rfl⟩ | ⟨rfl, rfl⟩ | ⟨rfl, rfl⟩
  all_goals
    simp only [List.mem_cons, List.not_mem_nil, or_false] at spelled
    rcases spelled with rfl | rfl <;> rfl

theorem form?_of_unknown {s : String} (unknown : ∀ entry ∈ vocabulary, s ∉ entry.1) :
    form? s = none := by
  rw [form?.eq_def]
  split
  all_goals try rfl
  all_goals exact absurd unknown (by decide)

theorem form?_eq_some_iff {word : List Char} {form : Form} :
    form? (String.ofList word) = some form ↔ Names word form := by
  constructor
  · intro found
    by_cases known : ∃ entry ∈ vocabulary, String.ofList word ∈ entry.1
    · obtain ⟨⟨spellings, form'⟩, entry, spelled⟩ := known
      cases found.symm.trans (form?_of_mem entry spelled)
      exact ⟨spellings, entry, spelled⟩
    · have none := form?_of_unknown fun entry mem spelled => known ⟨entry, mem, spelled⟩
      cases found.symm.trans none
  · rintro ⟨spellings, entry, spelled⟩
    exact form?_of_mem entry spelled

/-! ## Arguments -/

theorem address_of_isAddress {word : List Char} {n : Nat} (h : IsAddress word n) :
    address word = .ok n := by
  rw [address, natural?_eq_some_iff.mpr h]

theorem address_of_refused {word : List Char} (refused : ∀ n, ¬ IsAddress word n) :
    address word = .error (.badAddress (String.ofList word)) := by
  rw [address]
  split
  · next n read => exact absurd (natural?_eq_some_iff.mp read) (refused n)
  · rfl

theorem byte_of_isByte {word : List Char} {b : UInt8} (h : IsByte word b) :
    byte word = .ok b := by
  rw [byte, natural?_eq_some_iff.mpr ⟨h, b.toNat_lt⟩]
  exact congrArg Except.ok UInt8.ofNat_toNat

theorem byte_of_refused {word : List Char} (refused : ∀ b, ¬ IsByte word b) :
    byte word = .error (.badByte (String.ofList word)) := by
  rw [byte]
  split
  · next n read =>
      obtain ⟨numeral, small⟩ := natural?_eq_some_iff.mp read
      have isByte : IsByte word (UInt8.ofNat n) := by
        rwa [IsByte, UInt8.toNat_ofNat_of_lt' small]
      exact absurd isByte (refused (UInt8.ofNat n))
  · rfl

theorem complete_of_length_ne {form : Form} {arguments : List (List Char)}
    (count : arguments.length ≠ form.arity) : form.complete arguments = .error .badSyntax := by
  rw [Form.complete.eq_def]
  split
  · exact absurd rfl count
  · exact absurd rfl count
  · exact absurd rfl count
  · rfl

/-- The address comes first whatever else is called for. -/
theorem complete_of_bad_address {form : Form} {first : List Char} {more : List (List Char)}
    (count : (first :: more).length = form.arity) (refused : ∀ n, ¬ IsAddress first n) :
    form.complete (first :: more) = .error (.badAddress (String.ofList first)) := by
  cases form with
  | plain command => cases count
  | address make =>
      obtain rfl : more = [] := List.length_eq_zero_iff.mp (Nat.succ.inj count)
      rw [Form.complete, address_of_refused refused]
      rfl
  | addressAndByte make =>
      obtain ⟨second, rfl⟩ := List.length_eq_one_iff.mp (Nat.succ.inj count)
      rw [Form.complete, address_of_refused refused]
      rfl

/-! ## Lines -/

theorem parse_of_names {line : String} {word : List Char} {arguments : List (List Char)}
    {form : Form} (spaced : Spaced line.toList (word :: arguments)) (names : Names word form) :
    parse line = form.complete arguments := by
  rw [parse, spaced.words_eq]
  simp only [form?_eq_some_iff.mpr names]

theorem parse_of_unknown {line : String} {word : List Char} {arguments : List (List Char)}
    (spaced : Spaced line.toList (word :: arguments)) (unknown : ∀ form, ¬ Names word form) :
    parse line = .error (.unrecognized line) := by
  have none : form? (String.ofList word) = none := by
    rw [Option.eq_none_iff_forall_ne_some]
    intro form found
    exact unknown form (form?_eq_some_iff.mp found)
  rw [parse, spaced.words_eq]
  simp only [none]

theorem parse_of_empty {line : String} (spaced : Spaced line.toList []) :
    parse line = .error (.unrecognized line) := by
  rw [parse, spaced.words_eq]

theorem Verdict.parse_eq {line : String} {words : List (List Char)}
    {result : Except CommandError Command} (h : Verdict line words result)
    (spaced : Spaced line.toList words) : parse line = result := by
  cases h with
  | empty => exact parse_of_empty spaced
  | unnamed unknown => exact parse_of_unknown spaced unknown
  | badSyntax names count => rw [parse_of_names spaced names, complete_of_length_ne count]
  | badAddress names count refused =>
      rw [parse_of_names spaced names, complete_of_bad_address count refused]
  | badByte names address refused =>
      rw [parse_of_names spaced names, Form.complete, address_of_isAddress address,
        byte_of_refused refused]
      rfl
  | plain names =>
      rw [parse_of_names spaced names]
      rfl
  | address names address =>
      rw [parse_of_names spaced names, Form.complete, address_of_isAddress address]
      rfl
  | addressAndByte names address byte =>
      rw [parse_of_names spaced names, Form.complete, address_of_isAddress address,
        byte_of_isByte byte]
      rfl

/-- The right number of arguments is read as what the form calls for, or refused at the first
argument that is no such thing. -/
theorem exists_verdict_of_names {line : String} {word : List Char} {arguments : List (List Char)}
    {form : Form} (names : Names word form) (count : arguments.length = form.arity) :
    ∃ result, Verdict line (word :: arguments) result := by
  cases form with
  | plain command =>
      obtain rfl := List.length_eq_zero_iff.mp count
      exact ⟨_, .plain names⟩
  | address make =>
      obtain ⟨first, rfl⟩ := List.length_eq_one_iff.mp count
      by_cases accepted : ∃ n, IsAddress first n
      · obtain ⟨n, address⟩ := accepted
        exact ⟨_, .address names address⟩
      · exact ⟨_, .badAddress names count (not_exists.mp accepted)⟩
  | addressAndByte make =>
      obtain ⟨first, second, rfl⟩ := List.length_eq_two.mp count
      by_cases accepted : ∃ n, IsAddress first n
      · obtain ⟨n, address⟩ := accepted
        by_cases byte : ∃ b, IsByte second b
        · obtain ⟨b, byte⟩ := byte
          exact ⟨_, .addressAndByte names address byte⟩
        · exact ⟨_, .badByte names address (not_exists.mp byte)⟩
      · exact ⟨_, .badAddress names count (not_exists.mp accepted)⟩

theorem exists_verdict (line : String) (words : List (List Char)) :
    ∃ result, Verdict line words result := by
  cases words with
  | nil => exact ⟨_, .empty⟩
  | cons word arguments =>
      by_cases known : ∃ form, Names word form
      · obtain ⟨form, names⟩ := known
        by_cases count : arguments.length = form.arity
        · exact exists_verdict_of_names names count
        · exact ⟨_, .badSyntax names count⟩
      · exact ⟨_, .unnamed (not_exists.mp known)⟩

theorem parse_eq_iff_verdict {line : String} {words : List (List Char)}
    (spaced : Spaced line.toList words) {result : Except CommandError Command} :
    parse line = result ↔ Verdict line words result := by
  constructor
  · rintro rfl
    obtain ⟨result, verdict⟩ := exists_verdict line words
    rwa [verdict.parse_eq spaced]
  · intro verdict
    exact verdict.parse_eq spaced

/-- A command does not show which line it was read from. -/
theorem Verdict.ok_congr {line other : String} {words : List (List Char)} {command : Command}
    (h : Verdict line words (.ok command)) : Verdict other words (.ok command) := by
  cases h with
  | plain names => exact .plain names
  | address names address => exact .address names address
  | addressAndByte names address byte => exact .addressAndByte names address byte

/-- A line has its words and exactly one verdict, the one that they call for.  Lines with the same
words give the same command, and where a command has two spellings either will do. -/
theorem parse_iff_verdict_of_words (line : String) :
    (∃! words, Spaced line.toList words) ∧
      (∀ result, parse line = result ↔
        ∃ words, Spaced line.toList words ∧ Verdict line words result) ∧
      (∀ other words, Spaced line.toList words → Spaced other.toList words →
        ∀ command, parse line = .ok command ↔ parse other = .ok command) ∧
      ∀ other spellings form, (spellings, form) ∈ vocabulary →
        ∀ name ∈ spellings, ∀ synonym ∈ spellings, ∀ arguments,
          Spaced line.toList (name.toList :: arguments) →
          Spaced other.toList (synonym.toList :: arguments) → parse line = parse other := by
  obtain ⟨words, spaced⟩ := exists_spaced line.toList
  refine ⟨⟨words, spaced, ?_⟩, ?_, ?_, ?_⟩
  · intro words' spaced'
    exact spaced'.words_eq.symm.trans spaced.words_eq
  · intro result
    constructor
    · intro parsed
      exact ⟨words, spaced, (parse_eq_iff_verdict spaced).mp parsed⟩
    · rintro ⟨words', spaced', verdict⟩
      exact verdict.parse_eq spaced'
  · intro other words spaced spaced' command
    rw [parse_eq_iff_verdict spaced, parse_eq_iff_verdict spaced']
    exact ⟨Verdict.ok_congr, Verdict.ok_congr⟩
  · intro other spellings form entry name spelled synonym spelled' arguments spaced spaced'
    have names : Names name.toList form := ⟨spellings, entry, by rwa [String.ofList_toList]⟩
    have names' : Names synonym.toList form := ⟨spellings, entry, by rwa [String.ofList_toList]⟩
    rw [parse_of_names spaced names, parse_of_names spaced' names']

end FencedTape.Command
