import FencedTape.Proofs.Dialogue

/-! # Sessions on a narrow console

A console with room for `size` bytes in all cuts off what goes beyond, and that ends the session.
Everything that a session writes takes one byte for each character, so bytes and characters are cut
at the same place.

`Fair op s last` compares an operation on a console without bound with the same operation on a
narrow one.  If what is written fits then both do the same; else the narrow session is cut off and
stands, but for its console, as a session that `last` holds of.  Operations that write nothing are
fair (`Fair.of_silent`), writing is fair (`fair_say`), and so is one fair operation followed by
another (`Fair.andThen`).  A session is made of these, and where it is cut off it has answered all
the lines that it has taken (`After`). -/

set_option autoImplicit false

namespace FencedTape

/-! ## Plain texts -/

namespace Text

/-- Every character takes one byte. -/
def Plain (s : List Char) : Prop := ∀ c ∈ s, c.utf8Size = 1

instance : DecidablePred Plain := List.decidableBAll fun c : Char => c.utf8Size = 1

theorem plain_append {s t : List Char} : Plain (s ++ t) ↔ Plain s ∧ Plain t :=
  List.forall_mem_append

theorem Plain.length_encode {s : List Char} (h : Plain s) : (encode s).length = s.length := by
  induction s with
  | nil => rfl
  | cons c s ih =>
      obtain ⟨single, rest⟩ := List.forall_mem_cons.mp h
      rw [encode_cons, List.length_append, String.length_utf8EncodeChar, single, ih rest,
        List.length_cons, Nat.add_comm]

theorem Plain.encode_take {s : List Char} (h : Plain s) (count : Nat) :
    encode (s.take count) = (encode s).take count := by
  induction s generalizing count with
  | nil => simp
  | cons c s ih =>
      obtain ⟨single, rest⟩ := List.forall_mem_cons.mp h
      obtain ⟨b, only⟩ := List.length_eq_one_iff.mp ((String.length_utf8EncodeChar c).trans single)
      cases count with
      | zero => rfl
      | succ count =>
          rw [List.take_succ_cons, encode_cons, encode_cons, only, ih rest]
          rfl

theorem plain_nat (n : Nat) : Plain (toString n).toList := by
  intro c mem
  rw [Nat.toString_eq_repr, Nat.toList_repr] at mem
  have digit := Nat.isDigit_of_mem_toDigits (by decide) (by decide) mem
  rw [Char.isDigit, Bool.and_eq_true, decide_eq_true_iff, decide_eq_true_iff] at digit
  exact Char.utf8Size_eq_one_iff.mpr (UInt32.le_trans digit.2 (by decide))

theorem plain_int (v : Int) : Plain (toString v).toList := by
  rw [Int.toString_eq_repr, Int.repr_eq_if]
  split
  · exact plain_nat v.toNat
  · rw [String.toList_append, plain_append]
    exact ⟨by decide, plain_nat (-v).toNat⟩

end Text

open Text (Plain plain_append plain_nat plain_int)

theorem plain_describe (instr : Instr) : Plain instr.describe.toList := by
  have record : ∀ (name first second : String) (offset : Int64) (byte : UInt8),
      Plain name.toList → Plain first.toList → Plain second.toList →
      Plain (name ++ " \x7b " ++ first ++ ": " ++ toString offset.toInt ++ ", " ++ second ++ ": " ++
        toString byte.toNat ++ " \x7d").toList := by
    intro name first second offset byte plain plain₁ plain₂
    simp only [String.toList_append, plain_append]
    refine ⟨⟨⟨⟨⟨⟨⟨⟨⟨plain, ?_⟩, plain₁⟩, ?_⟩, plain_int _⟩, ?_⟩, plain₂⟩, ?_⟩, plain_nat _⟩, ?_⟩ <;>
      decide
  have tuple : ∀ (name : String) (word : Int64), Plain name.toList →
      Plain (name ++ "(" ++ toString word.toInt ++ ")").toList := by
    intro name word plain
    simp only [String.toList_append, plain_append]
    exact ⟨⟨⟨plain, by decide⟩, plain_int _⟩, by decide⟩
  cases instr with
  | loopOpen => decide
  | loopClose => decide
  | act action =>
      cases action with
      | adjust offset delta => exact record _ _ _ _ _ (by decide) (by decide) (by decide)
      | select delta => exact tuple _ _ (by decide)
      | read offset => exact tuple _ _ (by decide)
      | write offset => exact tuple _ _ (by decide)
      | set offset value => exact record _ _ _ _ _ (by decide) (by decide) (by decide)
      | multiplyAdd offset factor => exact record _ _ _ _ _ (by decide) (by decide) (by decide)
      | scan direction => cases direction <;> decide

namespace Session

theorem plain_help : Plain help.toList := by
  unfold help
  simp only [String.toList_append, plain_append]
  decide +kernel

theorem plain_breakpointReport (p : Program) (address : Nat) :
    Plain (breakpointReport p address).toList := by
  unfold breakpointReport
  simp only [String.toList_append, plain_append]
  refine ⟨⟨by decide +kernel, plain_nat address⟩, ?_⟩
  cases p.get? address with
  | none => decide
  | some instr =>
      simp only [String.toList_append, plain_append]
      exact ⟨⟨by decide, plain_describe instr⟩, by decide⟩

theorem plain_answer (p : Program) (request : Request) (reply : Reply) :
    Plain (answer p request reply).toList := by
  fun_cases answer p request reply with
  | case1 reply => decide
  | case2 index value =>
      rw [String.toList_append, plain_append]
      exact ⟨plain_nat _, by decide⟩
  | case3 request address =>
      rw [String.toList_append, plain_append]
      exact ⟨plain_breakpointReport p _, by decide⟩
  | case4 => decide

/-! ## Operations on a narrow console -/

/-- The same session on a console that takes `size` characters in all. -/
def narrow (size : Nat) (s : Session) : Session :=
  { s with console := { s.console with room := some (size - s.console.text.size) } }

/-- What comes of an operation on a narrow console, when `wide` comes of it on one without bound. -/
inductive Curtailed {β : Type} (size : Nat) (closed : β) (last : Session → Prop)
    (wide : Session × β) : Session × β → Prop
  | whole (fits : wide.1.console.text.size ≤ size) :
      Curtailed size closed last wide (wide.1.narrow size, wide.2)
  | cut {t : Session} {console : Console} (beyond : size < wide.1.console.text.size)
      (shown : console.text.toList = wide.1.console.text.toList.take size) (reached : last t) :
      Curtailed size closed last wide ({ t with console }, closed)

structure Extends (s t : Session) : Prop where
  room : t.console.room = none
  text : ∃ more, Plain more ∧ t.console.text.toList = s.console.text.toList ++ more

structure Fair {β : Type} (closed : β) (op : Session → Session × β) (s : Session)
    (last : Session → Prop) : Prop where
  added : Extends s (op s).1
  narrow : ∀ size, s.console.text.size ≤ size →
    Curtailed size closed last (op s) (op (s.narrow size))

/-- Goes on with `rest` unless the session has ended. -/
def andThen {β : Type} (f : Ending → β) (rest : Session → Session × β) :
    Session × Option Ending → Session × β
  | (s, some ending) => (s, f ending)
  | (s, none) => rest s

theorem Extends.trans {s t u : Session} (first : Extends s t) (rest : Extends t u) :
    Extends s u := by
  obtain ⟨more, plain, text⟩ := first.text
  obtain ⟨more', plain', text'⟩ := rest.text
  refine ⟨rest.room, more ++ more', plain_append.mpr ⟨plain, plain'⟩, ?_⟩
  rw [text', text, List.append_assoc]

/-- What is cut off stays cut off. -/
theorem Extends.take_eq {s t : Session} (h : Extends s t) {size : Nat}
    (beyond : size < s.console.text.size) :
    size < t.console.text.size ∧
      t.console.text.toList.take size = s.console.text.toList.take size := by
  obtain ⟨more, -, text⟩ := h.text
  rw [← Array.length_toList] at beyond ⊢
  rw [text]
  constructor
  · rw [List.length_append]
    omega
  · exact List.take_append_of_le_length (Nat.le_of_lt beyond)

variable {β : Type} {closed : β} {s : Session} {last : Session → Prop}

/-- An operation that writes nothing does the same on a narrow console. -/
theorem Fair.of_silent {op : Session → Session × β} {t : Session} {b : β}
    (text : t.console.text = s.console.text) (room : t.console.room = none)
    (wide : op s = (t, b)) (narrow : ∀ size, op (s.narrow size) = (t.narrow size, b)) :
    Fair closed op s last := by
  constructor
  · rw [wide]
    exact ⟨room, [], by decide, by rw [text, List.append_nil]⟩
  · intro size fits
    rw [wide, narrow size]
    exact .whole (text ▸ fits)

theorem Fair.congr {op op' : Session → Session × β} {t : Session} (h : Fair closed op' t last)
    (console : t.console = s.console) (wide : op s = op' t)
    (narrow : ∀ size, op (s.narrow size) = op' (t.narrow size)) : Fair closed op s last := by
  constructor
  · rw [wide]
    exact ⟨h.added.room, console ▸ h.added.text⟩
  · intro size fits
    rw [wide, narrow size]
    exact h.narrow size (console ▸ fits)

theorem Curtailed.imp {size : Nat} {last' : Session → Prop} {wide result : Session × β}
    (h : Curtailed size closed last wide result) (kept : ∀ t, last t → last' t) :
    Curtailed size closed last' wide result := by
  cases h with
  | whole fits => exact .whole fits
  | cut beyond shown reached => exact .cut beyond shown (kept _ reached)

theorem Fair.imp {op : Session → Session × β} {last' : Session → Prop}
    (h : Fair closed op s last) (kept : ∀ t, last t → last' t) : Fair closed op s last' :=
  ⟨h.added, fun size fits => (h.narrow size fits).imp kept⟩

theorem Curtailed.andThen {size : Nat} {f : Ending → β} {rest : Session → Session × β}
    {wide result : Session × Option Ending}
    (h : Curtailed size (some (.failed .closed)) last wide result)
    (next : ∀ t, wide = (t, none) → Fair (f (.failed .closed)) rest t last) :
    Curtailed size (f (.failed .closed)) last (andThen f rest wide) (andThen f rest result) := by
  obtain ⟨t, _ | ending⟩ := wide
  · have fair := next t rfl
    cases h with
    | whole fits => exact fair.narrow size fits
    | cut beyond shown reached =>
        obtain ⟨beyond', same⟩ := fair.added.take_eq beyond
        exact .cut beyond' (shown.trans same.symm) reached
  · cases h with
    | whole fits => exact .whole fits
    | cut beyond shown reached => exact .cut beyond shown reached

theorem Fair.andThen {f : Ending → β} {first : Session → Session × Option Ending}
    {rest : Session → Session × β} (h : Fair (some (.failed .closed)) first s last)
    (later : ∀ t, first s = (t, none) → t.console.room = none →
      Fair (f (.failed .closed)) rest t last) :
    Fair (f (.failed .closed)) (fun s => andThen f rest (first s)) s last := by
  have added := h.added
  have next : ∀ t, first s = (t, none) → Fair (f (.failed .closed)) rest t last := by
    intro t wide
    rw [wide] at added
    exact later t wide added.room
  refine ⟨?_, fun size fits => (h.narrow size fits).andThen next⟩
  rcases wide : first s with ⟨t, _ | ending⟩
  · rw [wide] at added
    exact added.trans (next t wide).added
  · rw [wide] at added
    exact added

theorem say_of_unbounded (unbounded : s.console.room = none) (text : String)
    (next : Option Ending) :
    s.say text next =
      ({ s with console := { s.console with text := s.console.text ++ text.toList } }, next) := by
  simp only [say, Console.write, unbounded]

/-- Where the text is cut off the session is `t`, which differs from `s` in its console at most. -/
theorem fair_say {t : Session} {text : String} {next : Option Ending}
    (unbounded : s.console.room = none) (plain : Plain text.toList) (reached : last t)
    (same : ∀ console, ({ t with console } : Session) = { s with console }) :
    Fair (some (.failed .closed)) (fun s => s.say text next) s last := by
  have sizes : (s.console.text ++ text.toList).size =
      s.console.text.size + text.toList.length := by
    rw [← Array.length_toList, Array.toList_appendList, List.length_append, Array.length_toList]
  constructor
  · simp only [say_of_unbounded unbounded]
    exact ⟨unbounded, text.toList, plain, Array.toList_appendList⟩
  · intro size fits
    simp only [say_of_unbounded unbounded]
    by_cases short : text.toList.length ≤ size - s.console.text.size
    · have said : (s.narrow size).say text next =
          (narrow size { s with console :=
            { s.console with text := s.console.text ++ text.toList } }, next) := by
        simp only [say, narrow, Console.write, if_pos short, List.take_of_length_le short, sizes,
          Nat.sub_sub]
      rw [said]
      exact .whole (by rw [sizes]; omega)
    · have said : (s.narrow size).say text next =
          ({ t with console :=
            { s.console with
              text := s.console.text ++ text.toList.take (size - s.console.text.size)
              room := some (size - s.console.text.size - text.toList.length) } },
            some (.failed .closed)) := by
        rw [same]
        simp only [say, narrow, Console.write, if_neg short]
      rw [said]
      refine .cut (by rw [sizes]; omega) ?_ reached
      have before : s.console.text.toList.take size = s.console.text.toList :=
        List.take_of_length_le (by simpa using fits)
      rw [Array.toList_appendList, Array.toList_appendList, List.take_append, before,
        Array.length_toList]

/-! ## Sessions -/

def flushed (s : Session) : Session × Option Ending :=
  let (mishap, flushMishaps) := s.console.flushMishaps.next
  ({ s with console := { s.console with flushMishaps } },
    (mishap.bind Sink.flushError).map .failed)

def marked (s : Session) : Session := { s with marks := s.mark :: s.marks }

def listen (limit : Nat) (s : Session) : Session × Option Ending :=
  match s.marked.nextLine with
  | (s, .ended) => (s, some .ok)
  | (s, .failed e) => (s, some (.failed e))
  | (s, .line text) => s.answerLine limit text

def respond (request : Request) (reply : Reply) (s : Session) : Session × Option Ending :=
  match reply with
  | .refused e => (s.complain e.message, none)
  | .fault position => (s, some (.fault position))
  | .running => (s, some .running)
  | reply => s.say (answer s.debugger.program request reply) none

theorem ask_eq (limit : Nat) (request : Request) (s : Session) :
    s.ask limit request =
      respond request (s.debugger.handle limit request).2
        { s with debugger := (s.debugger.handle limit request).1 } := rfl

theorem showPrompt_eq : showPrompt = fun s => andThen some flushed (s.say prompt none) := by
  funext s
  unfold showPrompt
  rcases s.say prompt none with ⟨t, _ | ending⟩
  · simp only [andThen, flushed, Console.flush]
    cases t.console.flushMishaps.next.1.bind Sink.flushError <;> rfl
  · rfl

theorem turn_eq (limit : Nat) : turn limit = fun s => andThen some (listen limit) s.showPrompt := by
  funext s
  unfold turn
  rcases s.showPrompt with ⟨t, _ | ending⟩ <;> rfl

theorem converse_succ (limit count : Nat) :
    converse limit (count + 1) = fun s => andThen id (converse limit count) (s.turn limit) := by
  funext s
  rw [converse]
  rcases s.turn limit with ⟨t, _ | ending⟩ <;> rfl

theorem run_eq (limit : Nat) :
    run limit = fun s =>
      andThen id (fun s => s.converse limit (s.unread.length + 1)) (s.say welcome none) := by
  funext s
  unfold run
  rcases s.say welcome none with ⟨t, _ | ending⟩ <;> rfl

theorem fair_flushed {closed : Option Ending} (unbounded : s.console.room = none) :
    Fair closed flushed s last :=
  .of_silent (t := s.flushed.1) rfl unbounded rfl fun _ => rfl

theorem fair_showPrompt (unbounded : s.console.room = none) :
    Fair (some (.failed .closed)) showPrompt s (· = s) := by
  have said : Fair (some (.failed .closed)) (fun s => s.say prompt none) s (· = s) :=
    fair_say unbounded (by decide) rfl fun _ => rfl
  rw [showPrompt_eq]
  exact said.andThen fun t _ room => fair_flushed room

/-- The console has no say in what comes of asking for a line. -/
theorem nextLine_withConsole (s : Session) (console : Console) :
    ({ s with console } : Session).nextLine = ({ s.nextLine.1 with console }, s.nextLine.2) := by
  obtain ⟨debugger, before, errors, lines, failure, marks⟩ := s
  rcases failure with _ | ⟨_ | requests, cause⟩
  case some.zero => rfl
  all_goals
    unfold nextLine
    dsimp only [unread, setUnread]
    cases lines with
    | none =>
        dsimp only [Option.getD_none]
        cases debugger.machine.source.bytes with
        | nil => rfl
        | cons b bytes =>
            dsimp only
            cases Text.decode? (Text.splitLine (b :: bytes)).1 <;> rfl
    | some bytes =>
        dsimp only [Option.getD_some]
        cases bytes with
        | nil => rfl
        | cons b bytes =>
            dsimp only
            cases Text.decode? (Text.splitLine (b :: bytes)).1 <;> rfl

theorem console_nextLine (s : Session) : s.nextLine.1.console = s.console :=
  congrArg (fun result => result.1.console) (s.nextLine_withConsole s.console)

theorem nextLine_narrow (size : Nat) (s : Session) :
    (s.narrow size).nextLine = (s.nextLine.1.narrow size, s.nextLine.2) := by
  rw [narrow, nextLine_withConsole, narrow, console_nextLine]

theorem fair_respond (request : Request) (reply : Reply) (unbounded : s.console.room = none) :
    Fair (some (.failed .closed)) (respond request reply) s
      (fun t => respond request reply s = (t, none)) := by
  have answered : ∀ text : String, Plain text.toList →
      Fair (some (.failed .closed)) (fun s => s.say text none) s
        (fun t => s.say text none = (t, none)) := by
    intro text plain
    exact fair_say unbounded plain (say_of_unbounded unbounded text none) fun _ => rfl
  cases reply with
  | refused e => exact .of_silent (t := s.complain e.message) rfl unbounded rfl fun _ => rfl
  | fault position => exact .of_silent rfl unbounded rfl fun _ => rfl
  | running => exact .of_silent rfl unbounded rfl fun _ => rfl
  | done | finished | stopped | changed | value =>
      exact (answered _ (plain_answer s.debugger.program request _)).congr rfl rfl fun _ => rfl

theorem fair_ask (limit : Nat) (request : Request) (unbounded : s.console.room = none) :
    Fair (some (.failed .closed)) (fun s => s.ask limit request) s
      (fun t => s.ask limit request = (t, none)) := by
  have responded := fair_respond request (s.debugger.handle limit request).2
    (s := { s with debugger := (s.debugger.handle limit request).1 }) unbounded
  exact responded.congr rfl (ask_eq limit request s) fun size =>
    ask_eq limit request (s.narrow size)

theorem fair_answerLine (limit : Nat) (line : List Char) (unbounded : s.console.room = none) :
    Fair (some (.failed .closed)) (fun s => s.answerLine limit line) s
      (fun t => ∃ quit, s.answerLine limit line = (t, bif quit then some .ok else none)) := by
  simp only [answerLine_eq]
  cases order? line with
  | none => exact .of_silent rfl unbounded rfl fun _ => rfl
  | some order =>
      cases order with
      | error e => exact .of_silent (t := s.complain e.message) rfl unbounded rfl fun _ => rfl
      | ok command =>
          cases command with
          | help =>
              exact fair_say unbounded plain_help ⟨false, say_of_unbounded unbounded _ _⟩
                fun _ => rfl
          | quit =>
              exact fair_say unbounded (by decide) ⟨true, say_of_unbounded unbounded _ _⟩
                fun _ => rfl
          | ask request =>
              exact (fair_ask limit request unbounded).imp fun t asked => ⟨false, asked⟩

/-- A line is asked for and answered in full; `quit` says whether it ends the session. -/
def Takes (s t : Session) (quit : Bool) : Prop :=
  ∃ u v line limit, s.showPrompt = (u, none) ∧ u.marked.nextLine = (v, .line line) ∧
    v.answerLine limit line = (t, bif quit then some .ok else none)

/-- The session `t` that stands after `count` lines, all of them answered. -/
inductive After (s : Session) : (count : Nat) → (t : Session) → (quit : Bool) → Prop
  | greeted {t : Session} (said : s.say welcome none = (t, none)) : After s 0 t false
  | line {count : Nat} {t u : Session} {quit : Bool} (before : After s count t false)
      (takes : Takes t u quit) : After s (count + 1) u quit

theorem fair_listen (limit : Nat) (unbounded : s.console.room = none) :
    Fair (some (.failed .closed)) (listen limit) s
      (fun t => ∃ v line quit, s.marked.nextLine = (v, .line line) ∧
        v.answerLine limit line = (t, bif quit then some .ok else none)) := by
  have console : s.marked.nextLine.1.console = s.console := console_nextLine s.marked
  have narrowed : ∀ size, (s.narrow size).marked.nextLine =
      (s.marked.nextLine.1.narrow size, s.marked.nextLine.2) := fun size =>
    nextLine_narrow size s.marked
  rcases asked : s.marked.nextLine with ⟨v, answer⟩
  rw [asked] at console narrowed
  have room : v.console.room = none := (congrArg Console.room console).trans unbounded
  cases answer with
  | ended =>
      refine .of_silent (congrArg Console.text console) room (by rw [listen, asked]) ?_
      intro size
      rw [listen, narrowed]
  | failed e =>
      refine .of_silent (congrArg Console.text console) room (by rw [listen, asked]) ?_
      intro size
      rw [listen, narrowed]
  | line line =>
      refine Fair.congr ((fair_answerLine limit line room).imp ?_) console ?_ ?_
      · rintro t ⟨quit, answered⟩
        exact ⟨v, line, quit, rfl, answered⟩
      · rw [listen, asked]
      · intro size
        rw [listen, narrowed]

theorem fair_turn (limit : Nat) (unbounded : s.console.room = none) :
    Fair (some (.failed .closed)) (turn limit) s (fun t => t = s ∨ ∃ quit, Takes s t quit) := by
  rw [turn_eq]
  refine ((fair_showPrompt unbounded).imp fun t => Or.inl).andThen ?_
  intro u prompted room
  refine (fair_listen limit room).imp ?_
  rintro t ⟨v, line, quit, asked, answered⟩
  exact Or.inr ⟨quit, u, v, line, limit, prompted, asked, answered⟩

theorem takes_of_turn {limit : Nat} {t : Session} (h : s.turn limit = (t, none)) :
    Takes s t false := by
  simp only [turn_eq] at h
  rcases prompted : s.showPrompt with ⟨u, _ | ending⟩
  · rw [prompted] at h
    have heard : u.listen limit = (t, none) := h
    rw [listen] at heard
    rcases asked : u.marked.nextLine with ⟨v, answer⟩
    rw [asked] at heard
    cases answer with
    | ended => cases heard
    | failed e => cases heard
    | line line => exact ⟨u, v, line, limit, prompted, asked, heard⟩
  · rw [prompted] at h
    cases h

theorem fair_converse {origin : Session} {before : Nat} (limit count : Nat)
    (reached : After origin before s false) (unbounded : s.console.room = none) :
    Fair (.failed .closed) (converse limit count) s
      (fun t => ∃ count quit, After origin count t quit) := by
  induction count generalizing s before with
  | zero => exact .of_silent rfl unbounded rfl fun _ => rfl
  | succ count ih =>
      rw [converse_succ]
      refine ((fair_turn limit unbounded).imp ?_).andThen (f := id) ?_
      · -- the prompt is cut off before the next line is taken, or the answer to that line is
        rintro t (rfl | ⟨quit, takes⟩)
        · exact ⟨before, false, reached⟩
        · exact ⟨before + 1, quit, reached.line takes⟩
      · intro t taken room
        exact ih (reached.line (takes_of_turn taken)) room

theorem fair_run (limit : Nat) (unbounded : s.console.room = none) :
    Fair (.failed .closed) (run limit) s (fun t => ∃ count quit, After s count t quit) := by
  have welcomed : Fair (some (.failed .closed)) (fun s => s.say welcome none) s
      (fun t => ∃ count quit, After s count t quit) :=
    fair_say unbounded (by decide +kernel)
      ⟨0, false, .greeted (say_of_unbounded unbounded welcome none)⟩ fun _ => rfl
  rw [run_eq]
  refine welcomed.andThen (f := id) ?_
  intro t said room
  have conversed := fair_converse limit (t.unread.length + 1) (.greeted said) room
  exact conversed.congr rfl rfl fun _ => rfl

/-! ## The lines that a session has taken -/

theorem Takes.unique {t u : Session} {quit quit' : Bool} (left : Takes s t quit)
    (right : Takes s u quit') : t = u ∧ quit = quit' := by
  obtain ⟨_, v, line, limit, prompted, asked, answered⟩ := left
  obtain ⟨_, _, _, limit', prompted', asked', answered'⟩ := right
  cases prompted.symm.trans prompted'
  cases asked.symm.trans asked'
  have ended : ∀ quit : Bool, (bif quit then some Ending.ok else none) ≠ some .running := by decide
  obtain ⟨rfl, same⟩ := unique_of_limits answerLine_of_le ⟨ended quit, limit, answered⟩
    ⟨ended quit', limit', answered'⟩
  refine ⟨rfl, ?_⟩
  revert same
  cases quit <;> cases quit' <;> simp

theorem After.unique {count : Nat} {t u : Session} {quit quit' : Bool} (left : After s count t quit)
    (right : After s count u quit') : t = u ∧ quit = quit' := by
  induction left generalizing u quit' with
  | greeted said =>
      cases right with
      | greeted said' =>
          cases said.symm.trans said'
          exact ⟨rfl, rfl⟩
  | line _ takes ih =>
      cases right with
      | line before' takes' =>
          obtain ⟨rfl, -⟩ := ih before'
          exact takes.unique takes'

theorem marks_say (s : Session) (text : String) (next : Option Ending) :
    (s.say text next).1.marks = s.marks := by
  unfold say
  split <;> rfl

theorem marks_showPrompt (s : Session) : s.showPrompt.1.marks = s.marks := by
  have said := s.marks_say prompt none
  simp only [showPrompt_eq]
  rcases spoken : s.say prompt none with ⟨t, _ | ending⟩
  all_goals
    rw [spoken] at said
    exact said

theorem marks_nextLine (s : Session) : s.nextLine.1.marks = s.marks := by
  have kept : ∀ (s : Session) (bytes : List UInt8), (s.setUnread bytes).marks = s.marks := by
    intro s bytes
    unfold setUnread
    split <;> rfl
  fun_cases nextLine s with
  | case1 | case2 => rfl
  | case3 | case4 => exact kept _ _

theorem marks_answerLine (limit : Nat) (s : Session) (line : List Char) :
    (s.answerLine limit line).1.marks = s.marks := by
  rw [answerLine_eq]
  match order? line with
  | none => rfl
  | some (.error e) => rfl
  | some (.ok .help) => exact s.marks_say _ _
  | some (.ok .quit) => exact s.marks_say _ _
  | some (.ok (.ask request)) =>
      dsimp only [obey]
      rw [ask_eq]
      cases (s.debugger.handle limit request).2 with
      | refused e => rfl
      | fault position => rfl
      | running => rfl
      | done | finished | stopped | changed | value => exact marks_say _ _ _

theorem Takes.marks {t : Session} {quit : Bool} (h : Takes s t quit) :
    t.marks.length = s.marks.length + 1 := by
  obtain ⟨u, v, line, limit, prompted, asked, answered⟩ := h
  have prompts := s.marks_showPrompt
  have asks := u.marked.marks_nextLine
  have answers := v.marks_answerLine limit line
  rw [prompted] at prompts
  rw [asked] at asks
  rw [answered] at answers
  rw [answers, asks, marked, List.length_cons, prompts]

theorem After.marks {count : Nat} {t : Session} {quit : Bool} (h : After s count t quit) :
    t.marks.length = s.marks.length + count := by
  induction h with
  | greeted said =>
      have greets := s.marks_say welcome none
      rw [said] at greets
      rw [greets, Nat.add_zero]
  | line _ takes ih => rw [takes.marks, ih, Nat.add_assoc]

theorem Ends.iff {final : Session} {ending : Ending} (h : Ends s final ending) (t : Session)
    (e : Ending) : Ends s t e ↔ t = final ∧ e = ending := by
  constructor
  · intro other
    exact other.unique h
  · rintro ⟨rfl, rfl⟩
    exact h

def begun (d : Debugger) (lines : Option (List UInt8)) (lineFailure : Option (Nat × String))
    (flushMishaps : Script) (room : Option Nat) : Session where
  debugger := d
  console := { room, flushMishaps }
  lines := lines
  lineFailure := lineFailure

def shown (s : Session) : List UInt8 := Text.encode s.console.text.toList

/-- A console can only cut a session off.  Let a session come to an end on a console without bound,
and let there be room for `size` bytes on another.  Then the session comes to an end there too, in
one way only, and the console shows the first bytes of what it shows without the bound.  If all of
them fit then the two sessions are the same.  Else the session ends with an error of its console,
and all but the console is as it is without the bound once the lines that it has taken are all
answered. -/
theorem narrow_console_only_cuts_off (d : Debugger) (lines : Option (List UInt8))
    (lineFailure : Option (Nat × String)) (flushMishaps : Script) (size : Nat) (final : Session)
    (ending : Ending) (ends : Ends (begun d lines lineFailure flushMishaps none) final ending) :
    ∃ last ending',
      (∀ s e, Ends (begun d lines lineFailure flushMishaps (some size)) s e ↔
        s = last ∧ e = ending') ∧
      last.shown = final.shown.take size ∧
      (final.shown.length ≤ size → last = final.narrow size ∧ ending' = ending) ∧
      (size < final.shown.length → ending' = .failed .closed ∧
        (∃ t quit, After (begun d lines lineFailure flushMishaps none) last.marks.length t quit) ∧
        ∀ t quit, After (begun d lines lineFailure flushMishaps none) last.marks.length t quit →
          last = { t with console := last.console }) := by
  obtain ⟨ended, limit, ran⟩ := ends
  obtain ⟨⟨-, more, plain, text⟩, narrow⟩ :=
    fair_run limit (s := begun d lines lineFailure flushMishaps none) rfl
  have curtailed := narrow size (Nat.zero_le size)
  rw [ran] at text curtailed
  have whole : Plain final.console.text.toList := text ▸ plain
  have length : final.shown.length = final.console.text.size :=
    whole.length_encode.trans (Array.length_toList ..)
  have bounded : ((begun d lines lineFailure flushMishaps none).narrow size).run limit =
      (begun d lines lineFailure flushMishaps (some size)).run limit := rfl
  rw [bounded] at curtailed
  generalize ran' : (begun d lines lineFailure flushMishaps (some size)).run limit = result
    at curtailed
  cases curtailed with
  | whole fits =>
      refine ⟨_, _, Ends.iff ⟨ended, limit, ran'⟩, ?_, ?_, ?_⟩
      · exact (List.take_of_length_le (length ▸ fits)).symm
      · intro _
        exact ⟨rfl, rfl⟩
      · intro beyond
        rw [length] at beyond
        exact absurd fits (Nat.not_le_of_lt beyond)
  | @cut t console beyond shown reached =>
      obtain ⟨count, quit, after⟩ := reached
      have taken : t.marks.length = count := after.marks.trans (Nat.zero_add count)
      refine ⟨_, _, Ends.iff ⟨by simp, limit, ran'⟩, ?_, ?_, ?_⟩
      · exact (congrArg Text.encode shown).trans (whole.encode_take size)
      · intro fits
        rw [length] at fits
        exact absurd fits (Nat.not_le_of_lt beyond)
      · intro _
        refine ⟨rfl, ⟨t, quit, ?_⟩, ?_⟩
        · rw [taken]
          exact after
        · intro u quit' other
          rw [taken] at other
          obtain ⟨rfl, -⟩ := other.unique after
          rfl

/-- A console that is full in the middle of a report.  The run that it reports on is over, and the
lines after it are not read. -/
theorem cut_off_in_report :
    ∃ last t quit,
      Ends (begun (.fresh Debugger.countdown Debugger.idle)
        (some (Text.encode "b 1\nr\ns\nq\n".toList)) none [] (some 70)) last (.failed .closed) ∧
      last.shown = Text.encode (welcome ++ "> OK\n> Hit bre").toList ∧
      After (begun (.fresh Debugger.countdown Debugger.idle)
        (some (Text.encode "b 1\nr\ns\nq\n".toList)) none [] none) 2 t quit ∧
      last = { t with console := last.console } ∧ last.debugger.ip = 1 ∧
      last.lines = some (Text.encode "s\nq\n".toList) := by
  obtain ⟨final, ran, long, cut⟩ : ∃ final,
      (begun (.fresh Debugger.countdown Debugger.idle)
        (some (Text.encode "b 1\nr\ns\nq\n".toList)) none [] none).run 3 = (final, .ok) ∧
      70 < final.shown.length ∧
      final.shown.take 70 = Text.encode (welcome ++ "> OK\n> Hit bre").toList :=
    ⟨_, Prod.ext rfl (by decide +kernel), by decide +kernel, by decide +kernel⟩
  obtain ⟨narrow, stopped, taken, ip, lines⟩ : ∃ narrow,
      (begun (.fresh Debugger.countdown Debugger.idle)
        (some (Text.encode "b 1\nr\ns\nq\n".toList)) none [] (some 70)).run 3 =
          (narrow, .failed .closed) ∧
      narrow.marks.length = 2 ∧ narrow.debugger.ip = 1 ∧
      narrow.lines = some (Text.encode "s\nq\n".toList) :=
    ⟨_, Prod.ext rfl (by decide +kernel), by decide +kernel, by decide +kernel, by decide +kernel⟩
  obtain ⟨last, _, unique, shown, -, beyond⟩ :=
    narrow_console_only_cuts_off _ _ _ _ 70 _ _ ⟨by simp, 3, ran⟩
  obtain ⟨rfl, rfl⟩ := (unique _ _).mp ⟨by simp, 3, stopped⟩
  obtain ⟨-, ⟨t, quit, after⟩, same⟩ := beyond long
  have restored := same t quit after
  rw [taken] at after
  exact ⟨narrow, t, quit, (unique _ _).mpr ⟨rfl, rfl⟩, shown.trans cut, after, restored, ip, lines⟩

end Session

end FencedTape
