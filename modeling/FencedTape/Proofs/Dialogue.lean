import FencedTape.Proofs.Breakpoints
import FencedTape.Proofs.Lines
import FencedTape.Shell.Session

/-! # Sessions as dialogues with the debugger

A line orders nothing if it is blank, else a command, or it is rejected.  `Answers` says what comes
of a line: the debugger after it, what is written to the console and what to the error stream.  A
`Dialogue` goes through lines in order, each answered by the debugger that the one before it leaves.

A session whose lines come from a text of their own, with a console and a line source that do not
fail, hears the lines up to the first that quits and is a dialogue over these.  It ends without an
error unless one of them makes a request that faults or has no end itself (`Breaks`). -/

set_option autoImplicit false

namespace FencedTape

def Debugger.Replies (d : Debugger) (request : Request) (e : Debugger) (reply : Reply) : Prop :=
  reply ≠ .running ∧ ∃ limit, d.handle limit request = (e, reply)

namespace Session

/-- What a line orders, once it is trimmed: nothing if it is blank. -/
def order? (line : List Char) : Option (Except CommandError Command) :=
  match Text.trim line with
  | [] => none
  | c :: rest => some (Command.parse (String.ofList (c :: rest)))

def quits (line : List Char) : Bool :=
  match order? line with
  | some (.ok .quit) => true
  | _ => false

def heard (lines : List (List Char)) : List (List Char) := lines.take (lines.findIdx quits + 1)

def unheard (lines : List (List Char)) : List (List Char) := lines.drop (lines.findIdx quits + 1)

/-- What a line orders leads from `d` to a debugger, with a reply on the console and a complaint
on the error stream. -/
inductive Answers (d : Debugger) :
    Option (Except CommandError Command) → Debugger → String → String → Prop
  | blank : Answers d none d "" ""
  | rejected (e : CommandError) : Answers d (some (.error e)) d "" (e.message ++ "\n")
  | help : Answers d (some (.ok .help)) d Session.help ""
  | quit : Answers d (some (.ok .quit)) d confirmation ""
  | stepped {e : Debugger} (replied : d.Replies .step e .done) :
      Answers d (some (.ok (.ask .step))) e "" ""
  | carried {request : Request} {e : Debugger} {reply : Reply} (other : request ≠ .step)
      (replied : d.Replies request e reply) (safe : ∀ position, reply ≠ .fault position)
      (taken : ∀ cause, reply ≠ .refused cause) :
      Answers d (some (.ok (.ask request))) e (answer e.program request reply) ""
  | refused {request : Request} {e : Debugger} {cause : RequestError}
      (replied : d.Replies request e (.refused cause)) :
      Answers d (some (.ok (.ask request))) e "" (cause.message ++ "\n")

/-- A line with what is written in answer to it. -/
structure Exchange where
  line : List Char
  reply : String
  complaint : String

inductive Dialogue : Debugger → List Exchange → Debugger → Prop
  | nil (d : Debugger) : Dialogue d [] d
  | cons {d e f : Debugger} {x : Exchange} {exchanges : List Exchange}
      (first : Answers d (order? x.line) e x.reply x.complaint) (rest : Dialogue e exchanges f) :
      Dialogue d (x :: exchanges) f

/-- The line makes a request that ends in a fault or does not end. -/
def Breaks (d : Debugger) (line : List Char) : Prop :=
  ∃ request, order? line = some (.ok (.ask request)) ∧
    ((∃ e position, d.Replies request e (.fault position)) ∨
      ∀ e reply, ¬ d.Replies request e reply)

def Uninterrupted (d : Debugger) (lines : List (List Char)) : Prop :=
  ∀ exchanges e line, Dialogue d exchanges e →
    exchanges.map Exchange.line ++ [line] <+: lines → ¬ Breaks e line

/-- A session about to begin that has this text for its lines, and whose console and line source
do not fail. -/
def scripted (d : Debugger) (script : List Char) : Session where
  debugger := d
  lines := some (Text.encode script)

def Ends (s final : Session) (ending : Ending) : Prop :=
  ending ≠ .running ∧ ∃ limit, s.run limit = (final, ending)

end Session

/-! ## Limits -/

theorem Debugger.handle_of_le {m n : Nat} {d : Debugger} {request : Request}
    (h : (d.handle m request).2 ≠ .running) (le : m ≤ n) :
    d.handle n request = d.handle m request := by
  cases request with
  | run =>
      have ended : (d.run m).2 ≠ .running := by
        intro running
        apply h
        simp only [handle, Prod.map_snd, running]
        rfl
      simp only [handle, run_of_le ended le]
  | _ => rfl

theorem Debugger.Replies.unique {d e f : Debugger} {request : Request} {reply reply' : Reply}
    (left : d.Replies request e reply) (right : d.Replies request f reply') :
    e = f ∧ reply = reply' :=
  unique_of_limits handle_of_le left right

theorem Debugger.Replies.of_step {d e : Debugger} {reply : Reply} (h : d.Replies .step e reply)
    (safe : ∀ position, reply ≠ .fault position) (taken : ∀ cause, reply ≠ .refused cause) :
    reply = .done := by
  obtain ⟨-, limit, handled⟩ := h
  obtain rfl : Reply.ofOutcome d.step.2 = reply := congrArg Prod.snd handled
  cases stepped : d.step.2 with
  | done => rfl
  | failed cause =>
      rw [stepped] at taken
      exact absurd rfl (taken (.stream cause))
  | fault position =>
      rw [stepped] at safe
      exact absurd rfl (safe position)

namespace Session

theorem answerLine_eq (limit : Nat) (s : Session) (line : List Char) :
    s.answerLine limit line =
      match order? line with
      | none => (s, none)
      | some (.ok command) => s.obey limit command
      | some (.error e) => (s.complain e.message, none) := by
  rw [answerLine, order?]
  cases Text.trim line with
  | nil => rfl
  | cons c rest =>
    dsimp only
    cases Command.parse (String.ofList (c :: rest)) <;> rfl

theorem ask_of_le {m n : Nat} {s : Session} {request : Request}
    (h : (s.ask m request).2 ≠ some .running) (le : m ≤ n) :
    s.ask n request = s.ask m request := by
  have ended : (s.debugger.handle m request).2 ≠ .running := by
    intro running
    apply h
    rcases handled : s.debugger.handle m request with ⟨d, reply⟩
    rw [handled] at running
    cases running
    simp only [ask, handled]
  unfold ask
  rw [Debugger.handle_of_le ended le]

theorem answerLine_of_le {m n : Nat} {s : Session} {line : List Char}
    (h : (s.answerLine m line).2 ≠ some .running) (le : m ≤ n) :
    s.answerLine n line = s.answerLine m line := by
  rw [answerLine_eq] at h
  rw [answerLine_eq, answerLine_eq]
  split
  · rfl
  · next command order =>
      rw [order] at h
      cases command with
      | help => rfl
      | quit => rfl
      | ask request => exact ask_of_le h le
  · rfl

theorem turn_of_le {m n : Nat} {s : Session} (h : (s.turn m).2 ≠ some .running) (le : m ≤ n) :
    s.turn n = s.turn m := by
  unfold turn at h ⊢
  split
  · rfl
  · next prompted =>
      rw [prompted] at h
      dsimp only at h ⊢
      split
      · rfl
      · rfl
      · next asked =>
          rw [asked] at h
          exact answerLine_of_le h le

theorem converse_of_le {m n : Nat} (le : m ≤ n) (count : Nat) {s : Session}
    (h : (s.converse m count).2 ≠ .running) : s.converse n count = s.converse m count := by
  induction count generalizing s with
  | zero => rfl
  | succ count ih =>
      have same : s.turn n = s.turn m := by
        apply turn_of_le _ le
        intro running
        apply h
        rcases taken : s.turn m with ⟨t, ending⟩
        rw [taken] at running
        cases running
        rw [converse, taken]
      rw [converse] at h
      rw [converse, converse, same]
      split
      · next taken =>
          rw [taken] at h
          exact ih h
      · rfl

theorem run_of_le {m n : Nat} {s : Session} (h : (s.run m).2 ≠ .running) (le : m ≤ n) :
    s.run n = s.run m := by
  unfold run at h ⊢
  split
  · rfl
  · next greeted =>
      rw [greeted] at h
      exact converse_of_le le _ h

theorem Ends.unique {s final final' : Session} {ending ending' : Ending}
    (left : s.Ends final ending) (right : s.Ends final' ending') :
    final = final' ∧ ending = ending' :=
  unique_of_limits run_of_le left right

/-! ## Dialogues -/

theorem Answers.unique {d e f : Debugger} {order : Option (Except CommandError Command)}
    {reply reply' complaint complaint' : String} (left : Answers d order e reply complaint)
    (right : Answers d order f reply' complaint') :
    e = f ∧ reply = reply' ∧ complaint = complaint' := by
  cases left with
  | blank | rejected | help | quit =>
      cases right
      exact ⟨rfl, rfl, rfl⟩
  | stepped replied =>
      cases right with
      | stepped replied' =>
          obtain ⟨rfl, -⟩ := replied.unique replied'
          exact ⟨rfl, rfl, rfl⟩
      | carried other => exact absurd rfl other
      | refused replied' => cases (replied.unique replied').2
  | carried other replied safe taken =>
      cases right with
      | stepped => exact absurd rfl other
      | carried _ replied' =>
          obtain ⟨rfl, rfl⟩ := replied.unique replied'
          exact ⟨rfl, rfl, rfl⟩
      | refused replied' => exact absurd (replied.unique replied').2 (taken _)
  | refused replied =>
      cases right with
      | stepped replied' => cases (replied.unique replied').2
      | carried _ replied' _ taken => exact absurd (replied'.unique replied).2 (taken _)
      | refused replied' =>
          obtain ⟨rfl, same⟩ := replied.unique replied'
          cases same
          exact ⟨rfl, rfl, rfl⟩

theorem exists_answers_iff {d : Debugger} {line : List Char} :
    (∃ e reply complaint, Answers d (order? line) e reply complaint) ↔ ¬ Breaks d line := by
  constructor
  · rintro ⟨e, reply, complaint, answered⟩ ⟨request, order, broken⟩
    have replied : ∃ f r, d.Replies request f r ∧ ∀ position, r ≠ .fault position := by
      rw [order] at answered
      cases answered with
      | stepped replied => exact ⟨_, _, replied, by simp⟩
      | carried _ replied safe => exact ⟨_, _, replied, safe⟩
      | refused replied => exact ⟨_, _, replied, by simp⟩
    obtain ⟨f, r, replied, safe⟩ := replied
    rcases broken with ⟨g, position, fault⟩ | never
    · exact safe position (replied.unique fault).2
    · exact never f r replied
  · intro whole
    match order : order? line with
    | none => exact ⟨_, _, _, .blank⟩
    | some (.error e) => exact ⟨_, _, _, .rejected e⟩
    | some (.ok .help) => exact ⟨_, _, _, .help⟩
    | some (.ok .quit) => exact ⟨_, _, _, .quit⟩
    | some (.ok (.ask request)) =>
        by_cases ends : ∃ e reply, d.Replies request e reply
        · obtain ⟨e, reply, replied⟩ := ends
          have safe : ∀ position, reply ≠ .fault position := by
            rintro position rfl
            exact whole ⟨request, order, Or.inl ⟨e, position, replied⟩⟩
          by_cases refused : ∃ cause, reply = .refused cause
          · obtain ⟨cause, rfl⟩ := refused
            exact ⟨_, _, _, .refused replied⟩
          · have taken : ∀ cause, reply ≠ .refused cause := fun cause eq => refused ⟨cause, eq⟩
            by_cases step : request = .step
            · subst step
              obtain rfl := replied.of_step safe taken
              exact ⟨_, _, _, .stepped replied⟩
            · exact ⟨_, _, _, .carried step replied safe taken⟩
        · have never : ∀ e reply, ¬ d.Replies request e reply := fun e reply replied =>
            ends ⟨e, reply, replied⟩
          exact absurd ⟨request, order, Or.inr never⟩ whole

theorem Dialogue.unique {d e f : Debugger} {left right : List Exchange}
    (first : Dialogue d left e) (second : Dialogue d right f)
    (same : left.map Exchange.line = right.map Exchange.line) : left = right ∧ e = f := by
  induction first generalizing right with
  | nil d =>
      cases second with
      | nil => exact ⟨rfl, rfl⟩
      | cons => cases same
  | @cons d e _ x exchanges answered _ ih =>
      cases second with
      | nil => cases same
      | @cons _ _ _ y _ answered' rest =>
          obtain ⟨sameLine, sameLines⟩ := List.cons.inj same
          obtain ⟨line, reply, complaint⟩ := x
          obtain ⟨line', reply', complaint'⟩ := y
          cases sameLine
          obtain ⟨rfl, rfl, rfl⟩ := answered.unique answered'
          obtain ⟨rfl, ends⟩ := ih rest sameLines
          exact ⟨rfl, ends⟩

/-- A dialogue gets through all lines exactly if none of them breaks when it is reached. -/
theorem uninterrupted_iff {d : Debugger} {lines : List (List Char)} :
    Uninterrupted d lines ↔
      ∃ exchanges e, Dialogue d exchanges e ∧ exchanges.map Exchange.line = lines := by
  constructor
  · intro whole
    induction lines generalizing d with
    | nil => exact ⟨[], d, .nil d, rfl⟩
    | cons line lines ih =>
        have here : ¬ Breaks d line := whole [] d line (.nil d) (by simp)
        obtain ⟨e, reply, complaint, answered⟩ := exists_answers_iff.mpr here
        have first : Answers d (order? (Exchange.mk line reply complaint).line) e reply complaint :=
          answered
        have later : Uninterrupted e lines := by
          intro exchanges f next rest reached
          exact whole (⟨line, reply, complaint⟩ :: exchanges) f next (.cons first rest)
            (List.prefix_cons_inj line |>.mpr reached)
        obtain ⟨exchanges, f, rest, rfl⟩ := ih later
        exact ⟨⟨line, reply, complaint⟩ :: exchanges, f, .cons first rest, rfl⟩
  · rintro ⟨exchanges, e, dialogue, rfl⟩
    induction dialogue with
    | nil d =>
        intro others f line _ reached
        simp at reached
    | @cons d e f x exchanges answered rest ih =>
        intro others g line dialogue reached
        cases dialogue with
        | nil =>
            obtain ⟨rfl, -⟩ := List.cons_prefix_cons.mp reached
            exact exists_answers_iff.mp ⟨_, _, _, answered⟩
        | @cons _ _ _ y _ answered' rest' =>
            obtain ⟨same, reached⟩ := List.cons_prefix_cons.mp reached
            rw [same] at answered'
            obtain ⟨rfl, -⟩ := answered.unique answered'
            exact ih _ _ _ rest' reached

/-! ## Sessions -/

/-- Where a session stands that nothing disturbs. -/
structure Stands (s : Session) (d : Debugger) (unread : List UInt8) (text errors : List Char) :
    Prop where
  debugger : s.debugger = d
  console : s.console = { text := text.toArray }
  errors : s.errors = errors.toArray
  lines : s.lines = some unread
  lineFailure : s.lineFailure = none

variable {s : Session} {d : Debugger} {unread : List UInt8} {text errors : List Char}

theorem Stands.say (h : Stands s d unread text errors) (more : String) (next : Option Ending) :
    ∃ t, s.say more next = (t, next) ∧ Stands t d unread (text ++ more.toList) errors := by
  have written : s.console.write more.toList =
      (none, { text := (text ++ more.toList).toArray }) := by
    rw [h.console, Console.write]
    simp
  refine ⟨{ s with console := { text := (text ++ more.toList).toArray } }, ?_, ?_⟩
  · unfold Session.say
    rw [written]
  · exact ⟨h.debugger, rfl, h.errors, h.lines, h.lineFailure⟩

theorem Stands.complain (h : Stands s d unread text errors) (message : String) :
    Stands (s.complain message) d unread text (errors ++ (message ++ "\n").toList) := by
  refine ⟨h.debugger, h.console, ?_, h.lines, h.lineFailure⟩
  simp [Session.complain, h.errors]

theorem Stands.showPrompt (h : Stands s d unread text errors) :
    ∃ t, s.showPrompt = (t, none) ∧ Stands t d unread (text ++ prompt.toList) errors := by
  obtain ⟨t, said, stands⟩ := h.say prompt none
  refine ⟨t, ?_, stands⟩
  unfold Session.showPrompt
  rw [said]
  simp only [stands.console, Console.flush, Script.next_nil, Option.bind_none]
  rw [← stands.console]

theorem nextLine_of_steady (steady : s.lineFailure = none) :
    s.nextLine =
      match s.unread with
      | [] => (s, .ended)
      | bytes =>
          match Text.decode? (Text.splitLine bytes).1 with
          | some text => (s.setUnread (Text.splitLine bytes).2, .line text)
          | none => (s.setUnread (Text.splitLine bytes).2, .failed .notText) := by
  obtain ⟨debugger, console, errors, lines, failure, marks⟩ := s
  cases steady
  rfl

theorem Stands.unread_eq (h : Stands s d unread text errors) : s.unread = unread := by
  rw [Session.unread, h.lines]
  rfl

theorem Stands.nextLine_ended (h : Stands s d [] text errors) : s.nextLine = (s, .ended) := by
  rw [nextLine_of_steady h.lineFailure, h.unread_eq]

theorem Stands.nextLine {script line : List Char} {rest : List (List Char)}
    (h : Stands s d (Text.encode script) text errors) (cut : Text.lines script = line :: rest) :
    ∃ t later, s.nextLine = (t, .line line) ∧ Text.lines later = rest ∧
      Stands t d (Text.encode later) text errors := by
  obtain ⟨later, -, tail, split⟩ := Text.splitLine_encode cut
  have decoded : Text.decode? (Text.encode line) = some line := Text.decode?_eq_some_iff.mpr rfl
  refine ⟨s.setUnread (Text.encode later), later, ?_, tail, ?_⟩
  · rw [nextLine_of_steady h.lineFailure, h.unread_eq]
    split
    · next none =>
        rw [Text.encode_eq_nil_iff.mp none] at cut
        cases cut
    · rw [split, decoded]
  · unfold setUnread
    rw [h.lines]
    exact ⟨h.debugger, h.console, h.errors, rfl, h.lineFailure⟩

theorem Stands.withDebugger (h : Stands s d unread text errors) (e : Debugger) :
    Stands { s with debugger := e } e unread text errors :=
  ⟨rfl, h.console, h.errors, h.lines, h.lineFailure⟩

theorem Stands.ask_carried {request : Request} {e : Debugger} {reply : Reply} {limit : Nat}
    (h : Stands s d unread text errors) (handled : d.handle limit request = (e, reply))
    (ended : reply ≠ .running) (safe : ∀ position, reply ≠ .fault position)
    (taken : ∀ cause, reply ≠ .refused cause) :
    ∃ t, s.ask limit request = (t, none) ∧
      Stands t e unread (text ++ (answer e.program request reply).toList) errors := by
  obtain ⟨t, said, stands⟩ := (h.withDebugger e).say (answer e.program request reply) none
  refine ⟨t, ?_, stands⟩
  unfold Session.ask
  rw [h.debugger, handled]
  cases reply with
  | refused cause => exact absurd rfl (taken cause)
  | fault position => exact absurd rfl (safe position)
  | running => exact absurd rfl ended
  | done | finished | stopped | changed | value => exact said

theorem Stands.ask_refused {request : Request} {e : Debugger} {cause : RequestError} {limit : Nat}
    (h : Stands s d unread text errors)
    (handled : d.handle limit request = (e, .refused cause)) :
    ∃ t, s.ask limit request = (t, none) ∧
      Stands t e unread text (errors ++ (cause.message ++ "\n").toList) := by
  refine ⟨_, ?_, (h.withDebugger e).complain cause.message⟩
  unfold Session.ask
  rw [h.debugger, handled]

theorem Stands.answerLine {line : List Char} {e : Debugger} {reply complaint : String}
    (h : Stands s d unread text errors) (answered : Answers d (order? line) e reply complaint) :
    ∃ limit t, s.answerLine limit line = (t, bif quits line then some .ok else none) ∧
      Stands t e unread (text ++ reply.toList) (errors ++ complaint.toList) := by
  simp only [answerLine_eq, quits]
  generalize order? line = order at answered
  cases answered with
  | blank =>
      refine ⟨0, s, rfl, ?_⟩
      simpa using h
  | rejected e =>
      refine ⟨0, _, rfl, ?_⟩
      simpa using h.complain e.message
  | help =>
      obtain ⟨t, said, stands⟩ := h.say Session.help none
      exact ⟨0, t, said, by simpa using stands⟩
  | quit =>
      obtain ⟨t, said, stands⟩ := h.say confirmation (some .ok)
      exact ⟨0, t, said, by simpa using stands⟩
  | stepped replied =>
      obtain ⟨ended, limit, handled⟩ := replied
      obtain ⟨t, asked, stands⟩ := h.ask_carried handled ended (by simp) (by simp)
      exact ⟨limit, t, asked, by simpa [answer] using stands⟩
  | carried _ replied safe taken =>
      obtain ⟨ended, limit, handled⟩ := replied
      obtain ⟨t, asked, stands⟩ := h.ask_carried handled ended safe taken
      exact ⟨limit, t, asked, by simpa using stands⟩
  | refused replied =>
      obtain ⟨-, limit, handled⟩ := replied
      obtain ⟨t, asked, stands⟩ := h.ask_refused handled
      exact ⟨limit, t, asked, by simpa using stands⟩

theorem Stands.withMarks (h : Stands s d unread text errors) (marks : List Mark) :
    Stands { s with marks } d unread text errors :=
  ⟨h.debugger, h.console, h.errors, h.lines, h.lineFailure⟩

theorem Stands.turn_ended (h : Stands s d [] text errors) (limit : Nat) :
    ∃ t, s.turn limit = (t, some .ok) ∧ Stands t d [] (text ++ prompt.toList) errors := by
  obtain ⟨t, prompted, stands⟩ := h.showPrompt
  have marked := stands.withMarks (t.mark :: t.marks)
  refine ⟨_, ?_, marked⟩
  unfold turn
  rw [prompted]
  dsimp only
  rw [marked.nextLine_ended]

theorem Stands.turn_answered {script line : List Char} {rest : List (List Char)} {e : Debugger}
    {reply complaint : String} (h : Stands s d (Text.encode script) text errors)
    (cut : Text.lines script = line :: rest)
    (answered : Answers d (order? line) e reply complaint) :
    ∃ limit t later, s.turn limit = (t, bif quits line then some .ok else none) ∧
      Text.lines later = rest ∧
      Stands t e (Text.encode later) (text ++ prompt.toList ++ reply.toList)
        (errors ++ complaint.toList) := by
  obtain ⟨t, prompted, stands⟩ := h.showPrompt
  obtain ⟨u, later, asked, tail, stands⟩ := (stands.withMarks (t.mark :: t.marks)).nextLine cut
  obtain ⟨limit, v, obeyed, stands⟩ := stands.answerLine answered
  refine ⟨limit, v, later, ?_, tail, stands⟩
  unfold turn
  rw [prompted]
  dsimp only
  rw [asked]
  exact obeyed

theorem heard_cons (line : List Char) (rest : List (List Char)) :
    heard (line :: rest) = line :: bif quits line then [] else heard rest := by
  rw [heard, List.findIdx_cons]
  cases quits line <;> simp [heard]

theorem unheard_cons (line : List Char) (rest : List (List Char)) :
    unheard (line :: rest) = bif quits line then rest else unheard rest := by
  rw [unheard, List.findIdx_cons]
  cases quits line <;> simp [unheard]

theorem Stands.converse {lines : List (List Char)} {script : List Char}
    {exchanges : List Exchange} {e : Debugger} {count : Nat}
    (h : Stands s d (Text.encode script) text errors) (cut : Text.lines script = lines)
    (dialogue : Dialogue d exchanges e) (through : exchanges.map Exchange.line = heard lines)
    (enough : lines.length ≤ count) :
    ∃ limit t, s.converse limit (count + 1) = (t, .ok) ∧
      Stands t e (Text.encode (unheard lines).flatten)
        (text ++ exchanges.flatMap (fun x => prompt.toList ++ x.reply.toList) ++
          bif lines.any quits then [] else prompt.toList)
        (errors ++ exchanges.flatMap fun x => x.complaint.toList) := by
  induction lines generalizing s d script text errors exchanges count with
  | nil =>
      have whole := Text.flatten_lines script
      rw [cut] at whole
      subst whole
      cases List.map_eq_nil_iff.mp through
      cases dialogue
      obtain ⟨t, taken, stands⟩ := h.turn_ended 0
      refine ⟨0, t, ?_, ?_⟩
      · rw [Session.converse, taken]
      · simpa [unheard] using stands
  | cons line lines ih =>
      rw [heard_cons] at through
      cases dialogue with
      | nil => cases through
      | @cons _ e _ x exchanges first rest =>
          obtain ⟨rfl, through⟩ := List.cons.inj through
          obtain ⟨limit, t, later, taken, tail, stands⟩ := h.turn_answered cut first
          rw [unheard_cons, List.any_cons]
          cases quit : quits x.line with
          | true =>
              rw [quit] at through taken
              cases List.map_eq_nil_iff.mp through
              cases rest
              refine ⟨limit, t, ?_, ?_⟩
              · rw [Session.converse, taken]
                rfl
              · have left := Text.flatten_lines later
                rw [tail] at left
                simpa [left] using stands
          | false =>
              rw [quit] at through taken
              obtain ⟨count, rfl⟩ : ∃ fewer, count = fewer + 1 :=
                Nat.exists_eq_add_one.mpr (Nat.lt_of_lt_of_le (Nat.succ_pos _) enough)
              obtain ⟨limit', u, conversed, stands⟩ :=
                ih stands tail rest through (Nat.le_of_succ_le_succ enough)
              refine ⟨max limit limit', u, ?_, ?_⟩
              · have turn : s.turn (max limit limit') = (t, none) := by
                  rw [turn_of_le (by rw [taken]; simp) (Nat.le_max_left limit limit'), taken]
                  rfl
                have others : t.converse (max limit limit') (count + 1) = (u, .ok) := by
                  rw [converse_of_le (Nat.le_max_right limit limit') _ (by rw [conversed]; simp),
                    conversed]
                rw [Session.converse, turn]
                exact others
              · simpa using stands

/-- A session that nothing disturbs is the debugger driven by its lines.  Unless one of the lines
up to the first that quits breaks when it is reached, the session comes to an end without an error,
the debugger is left as the dialogue over these lines leaves it, and what follows them is not read.
On the console stand the welcome and, for each line, a prompt and the reply; a last prompt shows
that the lines have ended. -/
theorem session_is_dialogue (d : Debugger) (script : List Char)
    (whole : Uninterrupted d (heard (Text.lines script))) :
    ∃ final exchanges,
      (∀ s ending, Ends (scripted d script) s ending ↔
        s = final ∧ ending = .ok) ∧
      (∀ others e, Dialogue d others e ∧ others.map Exchange.line = heard (Text.lines script) ↔
        others = exchanges ∧ e = final.debugger) ∧
      final.lines = some (Text.encode (unheard (Text.lines script)).flatten) ∧
      final.console.text.toList =
        welcome.toList ++ exchanges.flatMap (fun x => prompt.toList ++ x.reply.toList) ++
          (if (Text.lines script).any quits then [] else prompt.toList) ∧
      final.errors.toList = exchanges.flatMap fun x => x.complaint.toList := by
  obtain ⟨exchanges, e, dialogue, through⟩ := uninterrupted_iff.mp whole
  have fresh : Stands (scripted d script) d (Text.encode script) [] [] := ⟨rfl, rfl, rfl, rfl, rfl⟩
  obtain ⟨s, greeted, stands₀⟩ := fresh.say welcome none
  obtain ⟨limit, final, conversed, stands⟩ :=
    stands₀.converse rfl dialogue through (Text.length_lines_le script)
  have ends : Ends (scripted d script) final .ok := by
    refine ⟨by simp, limit, ?_⟩
    unfold Session.run
    rw [greeted]
    dsimp only
    rw [stands₀.unread_eq, conversed]
  refine ⟨final, exchanges, ?_, ?_, stands.lines, ?_, ?_⟩
  · intro s ending
    constructor
    · intro other
      exact other.unique ends
    · rintro ⟨rfl, rfl⟩
      exact ends
  · intro others f
    rw [stands.debugger]
    constructor
    · rintro ⟨other, same⟩
      exact other.unique dialogue (same.trans through.symm)
    · rintro ⟨rfl, rfl⟩
      exact ⟨dialogue, through⟩
  · rw [stands.console]
    cases (Text.lines script).any quits <;> simp
  · simp [stands.errors]

/-- A breakpoint is set and reached, a line is rejected, and the session quits before the last. -/
theorem dialogue_countdown :
    ∃ final, Ends (scripted (.fresh Debugger.countdown Debugger.idle)
        "b 1\nr\n?\nq\ns\n".toList) final .ok ∧
      final.debugger.ip = 1 ∧ final.lines = some (Text.encode "s\n".toList) ∧
      final.console.text.toList =
        (welcome ++ "> OK\n> Hit breakpoint at 1 (Open)\n> > OK\n").toList ∧
      final.errors.toList = "Unrecognized command: ?\n".toList := by
  obtain ⟨d₁, set⟩ : ∃ e, (Debugger.fresh Debugger.countdown Debugger.idle).handle 0
      (.setBreakpoint 1) = (e, .changed true) := ⟨_, rfl⟩
  obtain ⟨d₂, ran, ip, program⟩ : ∃ e, d₁.handle 2 .run = (e, .stopped 1) ∧ e.ip = 1 ∧
      e.program = Debugger.countdown := by
    cases set
    exact ⟨_, Prod.ext rfl (by decide), by decide, by decide⟩
  have asked : order? "b 1\n".toList = some (.ok (.ask (.setBreakpoint 1))) ∧
      order? "r\n".toList = some (.ok (.ask .run)) ∧
      order? "?\n".toList = some (.error (.unrecognized "?")) ∧
      order? "q\n".toList = some (.ok .quit) := by
    decide +kernel
  obtain ⟨first, second, third, fourth⟩ := asked
  have settled : Answers (.fresh Debugger.countdown Debugger.idle) (order? "b 1\n".toList) d₁
      (answer d₁.program (.setBreakpoint 1) (.changed true)) "" := by
    rw [first]
    exact .carried (by simp) ⟨by simp, 0, set⟩ (by simp) (by simp)
  have stopped : Answers d₁ (order? "r\n".toList) d₂ (answer d₂.program .run (.stopped 1)) "" := by
    rw [second]
    exact .carried (by simp) ⟨by simp, 2, ran⟩ (by simp) (by simp)
  have rejected : Answers d₂ (order? "?\n".toList) d₂ ""
      ((CommandError.unrecognized "?").message ++ "\n") := by
    rw [third]
    exact .rejected _
  have told : Answers d₂ (order? "q\n".toList) d₂ confirmation "" := by
    rw [fourth]
    exact .quit
  have dialogue : Dialogue (.fresh Debugger.countdown Debugger.idle)
      [⟨"b 1\n".toList, confirmation, ""⟩,
        ⟨"r\n".toList, answer d₂.program .run (.stopped 1), ""⟩,
        ⟨"?\n".toList, "", (CommandError.unrecognized "?").message ++ "\n"⟩,
        ⟨"q\n".toList, confirmation, ""⟩] d₂ :=
    .cons settled (.cons stopped (.cons rejected (.cons told (.nil d₂))))
  have through : heard (Text.lines "b 1\nr\n?\nq\ns\n".toList) =
      ["b 1\n".toList, "r\n".toList, "?\n".toList, "q\n".toList] := by
    decide +kernel
  obtain ⟨final, exchanges, ends, same, unread, shown, complaints⟩ := session_is_dialogue
    (.fresh Debugger.countdown Debugger.idle) "b 1\nr\n?\nq\ns\n".toList
    (uninterrupted_iff.mpr ⟨_, _, dialogue, through.symm⟩)
  obtain ⟨rfl, last⟩ := (same _ _).mp ⟨dialogue, through.symm⟩
  refine ⟨final, (ends _ _).mpr ⟨rfl, rfl⟩, last ▸ ip, ?_, ?_, ?_⟩
  · rw [unread]
    decide +kernel
  · rw [shown, program]
    decide +kernel
  · rw [complaints, program]
    decide +kernel

end Session

end FencedTape
