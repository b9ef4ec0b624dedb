import FencedTape.Proofs.Resumption

/-! # The books of the streams

A debugger tries an instruction each time that it is asked to step and in every turn of a run that
does not stop.  An attempt is given by the debugger as it stands before it.  `Attempted d tries e`
says that requests lead from `d` to `e` with these attempts on the way; a request need not have come
to an end there, so all the moments of a run are among the states reached.

What came of an attempt is read off the calls that it makes: `written?` is the cell of a write whose
byte got out, whether or not it was flushed, and `stored?` the byte of the input that a completed
read stored.  `Books m m' tries` sets the streams against the attempts.  One attempt keeps the books
(`books_step`), and so do all that follow each other (`Attempted.books`): they are an `Account`,
which holds of whatever requests lead to as soon as it holds of the parts. -/

set_option autoImplicit false

namespace FencedTape

def Received.taken : Received → List UInt8
  | .byte value => [value]
  | .ended | .failed _ => []

theorem Source.bytes_eq_taken (s : Source) :
    s.bytes = s.receive.1.taken ++ s.receive.2.bytes := by
  obtain ⟨bytes, script⟩ := s
  rw [receive]
  split
  · cases bytes with
    | nil => rfl
    | cons value bytes => rfl
  · rfl
  · rfl
  · rfl

namespace Sink

theorem of_write_none {s t : Sink} {value : UInt8} (h : s.write value = (none, t)) :
    t.output = s.output.push value ∧ t.flushes = s.flushes := by
  rw [write] at h
  split at h
  · cases h
    exact ⟨rfl, rfl⟩
  all_goals cases h

theorem of_write_some {s t : Sink} {value : UInt8} {e : StreamError}
    (h : s.write value = (some e, t)) : t.output = s.output ∧ t.flushes = s.flushes := by
  rw [write] at h
  split at h
  · cases h
  all_goals
    cases h
    exact ⟨rfl, rfl⟩

theorem of_flush_none {s t : Sink} (h : s.flush = (none, t)) :
    t.output = s.output ∧ t.flushes = s.flushes + 1 := by
  unfold flush at h
  dsimp only at h
  split at h
  · cases h
  · cases h
    exact ⟨rfl, rfl⟩

theorem of_flush_some {s t : Sink} {e : StreamError} (h : s.flush = (some e, t)) :
    t.output = s.output ∧ t.flushes = s.flushes := by
  unfold flush at h
  dsimp only at h
  split at h
  · cases h
    exact ⟨rfl, rfl⟩
  · cases h

end Sink

namespace Machine

inductive Emission (m : Machine) (position : Int64) : Machine × Outcome → Prop
  | outside (none : m.tape.load? position = none) : Emission m position (m, .fault position)
  | unwritten {value : UInt8} {e : StreamError} {t : Sink}
      (loaded : m.tape.load? position = some value) (refused : m.sink.write value = (some e, t))
      (output : t.output = m.sink.output) (flushes : t.flushes = m.sink.flushes) :
      Emission m position ({ m with sink := t }, .failed e)
  | unflushed {value : UInt8} {e : StreamError} {s t : Sink}
      (loaded : m.tape.load? position = some value) (taken : m.sink.write value = (none, s))
      (refused : s.flush = (some e, t)) (output : t.output = m.sink.output.push value)
      (flushes : t.flushes = m.sink.flushes) : Emission m position ({ m with sink := t }, .failed e)
  | flushed {value : UInt8} {s t : Sink} (loaded : m.tape.load? position = some value)
      (taken : m.sink.write value = (none, s)) (done : s.flush = (none, t))
      (output : t.output = m.sink.output.push value) (flushes : t.flushes = m.sink.flushes + 1) :
      Emission m position ({ m with sink := t }, .done)

theorem emission (m : Machine) (position : Int64) : Emission m position (m.write position) := by
  rw [write]
  cases loaded : m.tape.load? position with
  | none => exact .outside loaded
  | some value =>
      dsimp only
      rw [Sink.emit]
      rcases written : m.sink.write value with ⟨_ | e, s⟩
      · obtain ⟨pushed, unchanged⟩ := Sink.of_write_none written
        dsimp only
        rcases flushed : s.flush with ⟨_ | e, t⟩
        · obtain ⟨output, flushes⟩ := Sink.of_flush_none flushed
          exact .flushed loaded written flushed (output.trans pushed) (by rw [flushes, unchanged])
        · obtain ⟨output, flushes⟩ := Sink.of_flush_some flushed
          exact .unflushed loaded written flushed (output.trans pushed) (flushes.trans unchanged)
      · obtain ⟨output, flushes⟩ := Sink.of_write_some written
        exact .unwritten loaded written output flushes

structure Silent (m : Machine) (result : Machine × Outcome) : Prop where
  source : result.1.source = m.source
  sink : result.1.sink = m.sink
  succeeds : ∀ cause, result.2 ≠ .failed cause

theorem silent_store (m : Machine) (position : Int64) (value : UInt8) :
    Silent m (m.store position value) := by
  rw [store]
  split
  · exact ⟨rfl, rfl, by simp⟩
  · exact ⟨rfl, rfl, by simp⟩

theorem silent_update (m : Machine) (position : Int64) (f : UInt8 → UInt8) :
    Silent m (m.update position f) := by
  rw [update]
  split
  · exact m.silent_store position _
  · exact ⟨rfl, rfl, by simp⟩

theorem load?_of_store {m m' : Machine} {position : Int64} {value : UInt8}
    (h : m.store position value = (m', .done)) : m'.tape.load? position = some value := by
  rw [store] at h
  split at h
  · next stored =>
      cases h
      rw [Tape.load?_of_store? stored, if_pos rfl]
  · cases h

inductive Reception (m : Machine) (position : Int64) : Machine × Outcome → Prop
  | unread {e : StreamError} {t : Source} (refused : m.source.receive = (.failed e, t)) :
      Reception m position ({ m with source := t }, .failed e)
  | ended {t : Source} {m' : Machine} {o : Outcome} (ended : m.source.receive = (.ended, t))
      (source : m'.source = t) (sink : m'.sink = m.sink) (succeeds : ∀ cause, o ≠ .failed cause) :
      Reception m position (m', o)
  | outside {value : UInt8} {t : Source} {m' : Machine} {fault : Int64}
      (taken : m.source.receive = (.byte value, t)) : Reception m position (m', .fault fault)
  | stored {value : UInt8} {t : Source} {m' : Machine}
      (taken : m.source.receive = (.byte value, t)) (source : m'.source = t)
      (sink : m'.sink = m.sink) (loaded : m'.tape.load? position = some value) :
      Reception m position (m', .done)

theorem reception (m : Machine) (position : Int64) : Reception m position (m.read position) := by
  rw [read]
  rcases received : m.source.receive with ⟨value | _ | e, t⟩
  · dsimp only
    have silent := ({ m with source := t } : Machine).silent_store position value
    rcases stored : ({ m with source := t } : Machine).store position value with ⟨m', o⟩
    rw [stored] at silent
    cases o with
    | done => exact .stored received silent.source silent.sink (load?_of_store stored)
    | failed cause => exact absurd rfl (silent.succeeds cause)
    | fault position => exact .outside received
  · dsimp only
    split
    · next value atEnd =>
        have silent := ({ m with source := t } : Machine).silent_store position value
        exact .ended received silent.source silent.sink silent.succeeds
    · exact .ended received rfl rfl (by simp)
  · exact .unread received

theorem silent_perform (m : Machine) {action : Action} (noRead : ∀ offset, action ≠ .read offset)
    (noWrite : ∀ offset, action ≠ .write offset) : Silent m (m.perform action) := by
  cases action with
  | adjust offset delta => exact m.silent_update _ _
  | select delta => exact ⟨rfl, rfl, by simp [perform]⟩
  | read offset => exact absurd rfl (noRead offset)
  | write offset => exact absurd rfl (noWrite offset)
  | set offset value => exact m.silent_store _ value
  | multiplyAdd offset factor =>
      rw [perform]
      split
      · exact m.silent_update _ _
      · exact ⟨rfl, rfl, by simp⟩
  | scan direction =>
      rw [perform]
      split
      · exact ⟨rfl, rfl, by simp⟩
      · exact ⟨rfl, rfl, by simp⟩

end Machine

/-! ## Attempts -/

def Progress.attempts (d : Debugger) : Progress → List Debugger
  | .running | .failed _ | .fault _ => [d]
  | .finished | .stopped _ => []

namespace Debugger

/-- The cell that the next instruction writes, if its byte gets out. -/
def written? (d : Debugger) : Option UInt8 :=
  match d.program.get? d.ip with
  | some (.act (.write offset)) =>
      (d.machine.tape.load? (d.machine.dp + offset)).filter fun value =>
        (d.machine.sink.write value).1.isNone
  | _ => none

def completesWrite (d : Debugger) : Bool :=
  match d.program.get? d.ip with
  | some (.act (.write _)) => d.step.2 = .done
  | _ => false

/-- The next instruction is a write whose byte gets out, but is not flushed. -/
def failsInFlush (d : Debugger) : Bool :=
  match d.written? with
  | some value => (d.machine.sink.write value).2.flush.1.isSome
  | none => false

/-- The byte of the input that the next instruction stores, if it is a read that is carried out. -/
def stored? (d : Debugger) : Option UInt8 :=
  match d.program.get? d.ip, d.machine.source.receive.1 with
  | some (.act (.read _)), .byte value => if d.step.2 = .done then some value else none
  | _, _ => none

def runAttempts : (limit : Nat) → Debugger → List Debugger
  | 0, _ => []
  | limit + 1, d =>
      match d.advance with
      | (e, .running) => d :: runAttempts limit e
      | (_, progress) => progress.attempts d

def attempts (limit : Nat) (d : Debugger) : Request → List Debugger
  | .run => d.runAttempts limit
  | .step => if d.isDone then [] else [d]
  | .setBreakpoint _ | .deleteBreakpoint _ | .peek _ | .poke _ _ | .jump _ | .select _
  | .setPointer _ => []

inductive Attempted (d : Debugger) : List Debugger → Debugger → Prop
  | start : Attempted d [] d
  | request {tries : List Debugger} {e f : Debugger} {reply : Reply} (limit : Nat)
      (request : Request) (before : Attempted d tries e)
      (handled : e.handle limit request = (f, reply)) :
      Attempted d (tries ++ e.attempts limit request) f

def Safe (tries : List Debugger) : Prop := ∀ t ∈ tries, ∀ position, t.step.2 ≠ .fault position

/-- The streams of `m` and `m'` differ by what the attempts account for. -/
structure Books (m m' : Machine) (tries : List Debugger) : Prop where
  flushes : m'.sink.flushes = m.sink.flushes + tries.countP completesWrite
  output : m'.sink.output.toList = m.sink.output.toList ++ tries.filterMap written?
  emitted : (tries.filterMap written?).length =
    tries.countP completesWrite + tries.countP failsInFlush
  input : m.source.bytes = tries.filterMap stored? ++ m'.source.bytes

theorem Books.of_same {m m' : Machine} (source : m'.source = m.source) (sink : m'.sink = m.sink) :
    Books m m' [] := by
  refine ⟨?_, ?_, rfl, ?_⟩
  · simp [sink]
  · simp [sink]
  · simp [source]

theorem Books.trans {m m' m'' : Machine} {tries more : List Debugger} (first : Books m m' tries)
    (rest : Books m' m'' more) : Books m m'' (tries ++ more) := by
  refine ⟨?_, ?_, ?_, ?_⟩
  · rw [rest.flushes, first.flushes, List.countP_append, Nat.add_assoc]
  · rw [rest.output, first.output, List.filterMap_append, List.append_assoc]
  · rw [List.filterMap_append, List.length_append, first.emitted, rest.emitted,
      List.countP_append, List.countP_append]
    omega
  · rw [first.input, rest.input, List.filterMap_append, List.append_assoc]

/-! ## One attempt -/

theorem reception_step {d : Debugger} {offset : Int64}
    (fetched : d.program.get? d.ip = some (.act (.read offset))) :
    d.machine.Reception (d.machine.dp + offset) (d.step.1.machine, d.step.2) := by
  obtain ⟨machine, outcome⟩ := step_eq_perform fetched
  rw [machine, outcome]
  exact d.machine.reception (d.machine.dp + offset)

theorem emission_step {d : Debugger} {offset : Int64}
    (fetched : d.program.get? d.ip = some (.act (.write offset))) :
    d.machine.Emission (d.machine.dp + offset) (d.step.1.machine, d.step.2) := by
  obtain ⟨machine, outcome⟩ := step_eq_perform fetched
  rw [machine, outcome]
  exact d.machine.emission (d.machine.dp + offset)

theorem silent_branch (d : Debugger) (ifZero ifNonzero : Nat) :
    d.machine.Silent
      ((d.branch ifZero ifNonzero).1.machine, (d.branch ifZero ifNonzero).2) := by
  rw [branch]
  split
  · exact ⟨rfl, rfl, by simp⟩
  · exact ⟨rfl, rfl, by simp⟩

inductive StreamUse (d : Debugger) : Prop
  | reads (offset : Int64) (fetched : d.program.get? d.ip = some (.act (.read offset)))
  | writes (offset : Int64) (fetched : d.program.get? d.ip = some (.act (.write offset)))
  | silent (noRead : ∀ offset, d.program.get? d.ip ≠ some (.act (.read offset)))
      (noWrite : ∀ offset, d.program.get? d.ip ≠ some (.act (.write offset)))
      (silent : d.machine.Silent (d.step.1.machine, d.step.2))

theorem streamUse (d : Debugger) : StreamUse d := by
  match fetched : d.program.get? d.ip with
  | none =>
      refine .silent (by simp [fetched]) (by simp [fetched]) ?_
      rw [step, fetched]
      exact ⟨rfl, rfl, by simp⟩
  | some .loopOpen =>
      refine .silent (by simp [fetched]) (by simp [fetched]) ?_
      rw [step_of_loopOpen fetched]
      exact d.silent_branch _ _
  | some .loopClose =>
      refine .silent (by simp [fetched]) (by simp [fetched]) ?_
      rw [step_of_loopClose fetched]
      exact d.silent_branch _ _
  | some (.act action) =>
      by_cases reads : ∃ offset, action = .read offset
      · obtain ⟨offset, rfl⟩ := reads
        exact .reads offset fetched
      · by_cases writes : ∃ offset, action = .write offset
        · obtain ⟨offset, rfl⟩ := writes
          exact .writes offset fetched
        · obtain ⟨machine, outcome⟩ := step_eq_perform fetched
          refine .silent ?_ ?_ ?_
          · intro offset same
            exact reads ⟨offset, by simpa [fetched] using same⟩
          · intro offset same
            exact writes ⟨offset, by simpa [fetched] using same⟩
          · rw [machine, outcome]
            exact d.machine.silent_perform (not_exists.mp reads) (not_exists.mp writes)

theorem books_of_silent {d : Debugger} {m : Machine}
    (noRead : ∀ offset, d.program.get? d.ip ≠ some (.act (.read offset)))
    (noWrite : ∀ offset, d.program.get? d.ip ≠ some (.act (.write offset)))
    (source : m.source = d.machine.source) (sink : m.sink = d.machine.sink) :
    Books d.machine m [d] := by
  have completes : d.completesWrite = false := by
    rw [completesWrite]
    split
    · next offset fetched => exact absurd fetched (noWrite offset)
    · rfl
  have written : d.written? = none := by
    rw [written?]
    split
    · next offset fetched => exact absurd fetched (noWrite offset)
    · rfl
  have fails : d.failsInFlush = false := by
    rw [failsInFlush, written]
  have stored : d.stored? = none := by
    rw [stored?]
    split
    · next offset _ fetched _ => exact absurd fetched (noRead offset)
    · rfl
  have plain := Books.of_same source sink
  refine ⟨?_, ?_, ?_, ?_⟩
  · simpa [completes] using plain.flushes
  · simpa [written] using plain.output
  · simp [written, completes, fails]
  · simpa [stored] using plain.input

theorem books_of_write {d : Debugger} {offset : Int64}
    (fetched : d.program.get? d.ip = some (.act (.write offset))) :
    Books d.machine d.step.1.machine [d] := by
  have completes : d.completesWrite = decide (d.step.2 = .done) := by
    simp only [completesWrite, fetched]
  have stored : d.stored? = none := by
    simp only [stored?, fetched]
  have emission := emission_step fetched
  generalize d.step.1.machine = m at emission ⊢
  generalize d.step.2 = o at emission completes
  cases emission with
  | outside none =>
      have written : d.written? = .none := by
        simp [written?, fetched, none]
      have fails : d.failsInFlush = false := by
        simp [failsInFlush, written]
      constructor <;> simp [completes, stored, written, fails]
  | unwritten loaded refused output flushes =>
      have written : d.written? = none := by
        simp [written?, fetched, loaded, refused]
      have fails : d.failsInFlush = false := by
        simp [failsInFlush, written]
      constructor <;> simp [completes, stored, written, fails, output, flushes]
  | @unflushed value _ _ _ loaded taken refused output flushes =>
      have written : d.written? = some value := by
        simp [written?, fetched, loaded, taken]
      have fails : d.failsInFlush = true := by
        simp [failsInFlush, written, taken, refused]
      constructor <;> simp [completes, stored, written, fails, output, flushes]
  | @flushed value _ _ loaded taken done output flushes =>
      have written : d.written? = some value := by
        simp [written?, fetched, loaded, taken]
      have fails : d.failsInFlush = false := by
        simp [failsInFlush, written, taken, done]
      constructor <;> simp [completes, stored, written, fails, output, flushes]

theorem books_of_read {d : Debugger} {offset : Int64}
    (fetched : d.program.get? d.ip = some (.act (.read offset)))
    (safe : ∀ position, d.step.2 ≠ .fault position) :
    Books d.machine d.step.1.machine [d] := by
  have completes : d.completesWrite = false := by
    simp only [completesWrite, fetched]
  have written : d.written? = none := by
    simp only [written?, fetched]
  have fails : d.failsInFlush = false := by
    simp only [failsInFlush, written]
  have emitted : ([d].filterMap written?).length =
      [d].countP completesWrite + [d].countP failsInFlush := by
    simp [completes, written, fails]
  have consumed := d.machine.source.bytes_eq_taken
  have reception := reception_step fetched
  generalize d.step.1.machine = m at reception ⊢
  generalize outcome : d.step.2 = o at reception safe
  cases reception with
  | unread refused =>
      have stored : d.stored? = none := by
        simp [stored?, fetched, refused]
      rw [refused] at consumed
      exact ⟨by simp [completes], by simp [written], emitted,
        by simpa [stored, Received.taken] using consumed⟩
  | ended ended source sink succeeds =>
      have stored : d.stored? = none := by
        simp [stored?, fetched, ended]
      rw [ended] at consumed
      exact ⟨by simp [completes, sink], by simp [written, sink], emitted,
        by simpa [stored, source, Received.taken] using consumed⟩
  | outside taken => exact absurd rfl (safe _)
  | @stored value _ _ taken source sink loaded =>
      have stored : d.stored? = some value := by
        simp [stored?, fetched, taken, outcome]
      rw [taken] at consumed
      exact ⟨by simp [completes, sink], by simp [written, sink], emitted,
        by simpa [stored, source, Received.taken] using consumed⟩

theorem books_step {d : Debugger} (safe : ∀ position, d.step.2 ≠ .fault position) :
    Books d.machine d.step.1.machine [d] := by
  cases d.streamUse with
  | reads offset fetched => exact books_of_read fetched safe
  | writes offset fetched => exact books_of_write fetched
  | silent noRead noWrite silent =>
      exact books_of_silent noRead noWrite silent.source silent.sink

/-- A read that stores a byte of the input leaves it in the cell that it addresses. -/
theorem load?_of_stored? {d : Debugger} {value : UInt8} (h : d.stored? = some value) :
    ∃ offset, d.program.get? d.ip = some (.act (.read offset)) ∧
      d.step.2 = .done ∧ d.step.1.machine.tape.load? (d.machine.dp + offset) = some value := by
  rw [stored?] at h
  split at h
  · next offset byte fetched received =>
      refine ⟨offset, fetched, ?_⟩
      have reception := reception_step fetched
      generalize d.step.1.machine = m at reception ⊢
      generalize d.step.2 = o at reception h ⊢
      cases reception with
      | unread refused => simp [refused] at received
      | ended ended => simp [ended] at received
      | outside => simp at h
      | stored taken _ _ loaded =>
          simp only [taken, Received.byte.injEq] at received
          simp only [if_true, Option.some.injEq] at h
          rw [received, h] at loaded
          exact ⟨rfl, loaded⟩
  · cases h

/-- An instruction that fails has changed nothing but its streams. -/
theorem eq_of_failed {d e : Debugger} {cause : StreamError} (h : d.step = (e, .failed cause)) :
    ∃ source sink, e = { d with machine := { d.machine with source, sink } } := by
  have live : d.isDone = false := by
    by_contra ended
    rw [step_of_isDone (by simpa using ended)] at h
    cases h
  obtain ⟨machine, rfl, -⟩ := exists_of_stuck live h (by simp)
  cases d.streamUse with
  | reads offset fetched =>
      have reception := reception_step fetched
      rw [h] at reception
      cases reception with
      | @unread _ t => exact ⟨t, d.machine.sink, rfl⟩
      | ended _ _ _ succeeds => exact absurd rfl (succeeds cause)
  | writes offset fetched =>
      have emission := emission_step fetched
      rw [h] at emission
      cases emission with
      | @unwritten _ _ t => exact ⟨d.machine.source, t, rfl⟩
      | @unflushed _ _ _ t => exact ⟨d.machine.source, t, rfl⟩
  | silent _ _ silent =>
      rw [h] at silent
      exact absurd rfl (silent.succeeds cause)

/-! ## Many attempts -/

/-- What relates a debugger to what it becomes by attempts: it holds of standing still, of each
control, of one attempt, and of what follows each other. -/
structure Account (R : Debugger → List Debugger → Debugger → Prop) : Prop where
  still : ∀ {d e : Debugger}, e.machine = d.machine → R d [] e
  control : ∀ {limit : Nat} {request : Request} {d e : Debugger} {reply : Reply},
    request ≠ .run → request ≠ .step → d.handle limit request = (e, reply) → R d [] e
  attempt : ∀ d : Debugger, R d [d] d.step.1
  trans : ∀ {d e f : Debugger} {tries more : List Debugger},
    R d tries e → R e more f → R d (tries ++ more) f

/-- A turn of a run leaves the machine as it is, or it attempts the next instruction. -/
theorem attempts_of_advance {d e : Debugger} {progress : Progress}
    (h : d.advance = (e, progress)) :
    progress.attempts d = [] ∧ e.machine = d.machine ∨
      progress.attempts d = [d] ∧ e = d.step.1 := by
  cases live : d.isDone with
  | true =>
      rw [advance_of_isDone live] at h
      cases h
      exact Or.inl ⟨rfl, rfl⟩
  | false =>
      cases here : d.atBreakpoint with
      | true =>
          rw [advance_of_atBreakpoint live here] at h
          cases h
          exact Or.inl ⟨rfl, rfl⟩
      | false =>
          right
          rcases stepped : d.step with ⟨f, o⟩
          by_cases done : o = .done
          · subst done
            rw [advance_of_carried live here stepped] at h
            cases h
            exact ⟨rfl, rfl⟩
          · rw [advance_of_stuck live here stepped done] at h
            cases h
            cases o with
            | done => exact absurd rfl done
            | failed cause => exact ⟨rfl, rfl⟩
            | fault position => exact ⟨rfl, rfl⟩

theorem runAttempts_of_running {d e : Debugger} (turn : d.advance = (e, .running)) (limit : Nat) :
    d.runAttempts (limit + 1) = [d] ++ e.runAttempts limit := by
  rw [runAttempts, turn]
  rfl

theorem runAttempts_of_stop {d e : Debugger} {progress : Progress}
    (turn : d.advance = (e, progress)) (stops : progress ≠ .running) (limit : Nat) :
    d.runAttempts (limit + 1) = progress.attempts d := by
  rw [runAttempts, turn]
  cases progress with
  | running => exact absurd rfl stops
  | finished => rfl
  | stopped address => rfl
  | failed cause => rfl
  | fault position => rfl

namespace Account

variable {R : Debugger → List Debugger → Debugger → Prop}

theorem advance (account : Account R) {d e : Debugger} {progress : Progress}
    (h : d.advance = (e, progress)) : R d (progress.attempts d) e := by
  rcases attempts_of_advance h with ⟨none, same⟩ | ⟨one, rfl⟩
  · rw [none]
    exact account.still same
  · rw [one]
    exact account.attempt d

theorem run (account : Account R) (limit : Nat) {d e : Debugger} {progress : Progress}
    (h : d.run limit = (e, progress)) : R d (d.runAttempts limit) e := by
  induction limit generalizing d with
  | zero =>
      cases h
      exact account.still rfl
  | succ limit ih =>
      rcases turn : d.advance with ⟨f, progress'⟩
      have first := account.advance turn
      by_cases running : progress' = .running
      · subst running
        rw [run_succ_of_running turn] at h
        rw [runAttempts_of_running turn]
        exact account.trans first (ih h)
      · rw [run_succ_of_stop (by rw [turn]; exact running), turn] at h
        cases h
        rwa [runAttempts_of_stop turn running]

theorem handle (account : Account R) {limit : Nat} {d e : Debugger} {request : Request}
    {reply : Reply} (h : d.handle limit request = (e, reply)) :
    R d (d.attempts limit request) e := by
  cases request with
  | run =>
      rcases ran : d.run limit with ⟨f, progress⟩
      simp only [Debugger.handle, ran] at h
      cases h
      exact account.run limit ran
  | step =>
      have stepped : e = d.step.1 := (congrArg Prod.fst h).symm
      subst stepped
      cases live : d.isDone with
      | true =>
          simp only [attempts, live, if_true]
          rw [step_of_isDone live]
          exact account.still rfl
      | false =>
          simp only [attempts, live, Bool.false_eq_true, if_false]
          exact account.attempt d
  | setBreakpoint | deleteBreakpoint | peek | poke | jump | select | setPointer =>
      exact account.control (by simp) (by simp) h

theorem attempted (account : Account R) {d e : Debugger} {tries : List Debugger}
    (h : Attempted d tries e) : R d tries e := by
  induction h with
  | start => exact account.still rfl
  | request limit request _ handled ih => exact account.trans ih (account.handle handled)

end Account

theorem streams_handle {limit : Nat} {d e : Debugger} {request : Request} {reply : Reply}
    (h : d.handle limit request = (e, reply)) (noRun : request ≠ .run) (noStep : request ≠ .step) :
    e.machine.source = d.machine.source ∧ e.machine.sink = d.machine.sink := by
  cases request with
  | run => exact absurd rfl noRun
  | step => exact absurd rfl noStep
  | setBreakpoint address =>
      rw [handle, setBreakpoint?] at h
      by_cases inside : address < d.program.size
      · rw [if_pos inside] at h
        cases h
        exact ⟨rfl, rfl⟩
      · rw [if_neg inside] at h
        cases h
        exact ⟨rfl, rfl⟩
  | deleteBreakpoint address =>
      cases h
      exact ⟨rfl, rfl⟩
  | peek index =>
      rw [handle] at h
      split at h
      · cases h
        exact ⟨rfl, rfl⟩
      · cases h
        exact ⟨rfl, rfl⟩
  | poke index value =>
      rw [handle, poke?] at h
      cases seen : d.peek? index with
      | none =>
          rw [seen] at h
          cases h
          exact ⟨rfl, rfl⟩
      | some old =>
          rw [seen] at h
          cases h
          exact ⟨rfl, rfl⟩
  | jump address =>
      rw [handle, jump?] at h
      by_cases inside : address < d.program.size
      · rw [if_pos inside] at h
        cases h
        exact ⟨rfl, rfl⟩
      · rw [if_neg inside] at h
        cases h
        exact ⟨rfl, rfl⟩
  | select index =>
      rw [handle, select?] at h
      by_cases inside : index < d.machine.tape.len
      · rw [if_pos inside] at h
        cases h
        exact ⟨rfl, rfl⟩
      · rw [if_neg inside] at h
        cases h
        exact ⟨rfl, rfl⟩
  | setPointer index =>
      cases h
      exact ⟨rfl, rfl⟩

theorem books_account :
    Account fun d tries e => Safe tries → Books d.machine e.machine tries where
  still := by
    intro d e same _
    rw [same]
    exact .of_same rfl rfl
  control := by
    intro limit request d e reply noRun noStep handled _
    obtain ⟨source, sink⟩ := streams_handle handled noRun noStep
    exact .of_same source sink
  attempt := by
    intro d safe
    exact books_step (safe d List.mem_cons_self)
  trans := by
    intro d e f tries more first rest safe
    exact (first fun t mem => safe t (List.mem_append_left _ mem)).trans
      (rest fun t mem => safe t (List.mem_append_right _ mem))

theorem Attempted.books {d e : Debugger} {tries : List Debugger} (h : Attempted d tries e)
    (safe : Safe tries) : Books d.machine e.machine tries :=
  books_account.attempted h safe

/-- The streams agree with what was tried, at every moment of any requests that end in no fault.
There are as many flushes as completed writes.  What was emitted are the addressed cells of the
writes whose byte got out, in order: one byte for each completed write, and one for each that failed
in its flush.  What is gone from the input are the bytes that completed reads have stored, each in
the cell that it addresses.  And whatever failed has left everything but the streams as it was. -/
theorem streams_agree_with_attempts (d e : Debugger) (tries : List Debugger)
    (h : Attempted d tries e) (safe : Safe tries) :
    e.machine.sink.flushes = d.machine.sink.flushes + tries.countP completesWrite ∧
    (e.machine.sink.output.toList = d.machine.sink.output.toList ++ tries.filterMap written? ∧
      (tries.filterMap written?).length =
        tries.countP completesWrite + tries.countP failsInFlush) ∧
    (d.machine.source.bytes = tries.filterMap stored? ++ e.machine.source.bytes ∧
      ∀ t ∈ tries, ∀ value, t.stored? = some value →
        ∃ offset, t.program.get? t.ip = some (.act (.read offset)) ∧ t.step.2 = .done ∧
          t.step.1.machine.tape.load? (t.machine.dp + offset) = some value) ∧
    ∀ t ∈ tries, ∀ f cause, t.step = (f, .failed cause) →
      ∃ source sink, f = { t with machine := { t.machine with source, sink } } := by
  have books := h.books safe
  refine ⟨books.flushes, ⟨books.output, books.emitted⟩, ⟨books.input, ?_⟩, ?_⟩
  · intro t _ value stored
    exact load?_of_stored? stored
  · intro t _ f cause failed
    exact eq_of_failed failed

/-- Input is read once, and a byte that is not flushed is written another time. -/
def stuttering : Machine :=
  { idle with
    source := { bytes := [65, 66], mishaps := [(0, .breakdown (.failed "boom"))] }
    sink := { flushMishaps := [(0, .breakdown (.failed "pipe gone"))] } }

theorem attempts_of_stuttering :
    ∃ tries d, Attempted (fresh echo stuttering) tries d ∧ Safe tries ∧ tries.length = 4 ∧
      tries.countP completesWrite = 1 ∧ tries.countP failsInFlush = 1 ∧
      d.machine.sink.output.toList = [65, 65] ∧ d.machine.sink.flushes = 1 ∧
      d.machine.source.bytes = [66] := by
  obtain ⟨d₁, unread, d₂, read, d₃, unflushed, d₄, flushed, tries, tried, outcomes, written,
      completed, failed, stored⟩ :
      ∃ d₁, (fresh echo stuttering).handle 5 .run = (d₁, .refused (.stream (.failed "boom"))) ∧
      ∃ d₂, d₁.handle 1 .step = (d₂, .done) ∧
      ∃ d₃, d₂.handle 5 .run = (d₃, .refused (.stream (.failed "pipe gone"))) ∧
      ∃ d₄, d₃.handle 5 .run = (d₄, .finished) ∧
      ∃ tries, [] ++ (fresh echo stuttering).attempts 5 .run ++ d₁.attempts 1 .step ++
          d₂.attempts 5 .run ++ d₃.attempts 5 .run = tries ∧
        tries.map (fun t => t.step.2) =
          [.failed (.failed "boom"), .done, .failed (.failed "pipe gone"), .done] ∧
        tries.filterMap written? = [65, 65] ∧ tries.countP completesWrite = 1 ∧
        tries.countP failsInFlush = 1 ∧ tries.filterMap stored? = [65] :=
    ⟨_, rfl, _, rfl, _, rfl, _, rfl, _, rfl, rfl, rfl, rfl, rfl, rfl⟩
  have attempted : Attempted (fresh echo stuttering) tries d₄ := by
    rw [← tried]
    exact (((Attempted.start.request 5 .run unread).request 1 .step read).request
      5 .run unflushed).request 5 .run flushed
  have safe : Safe tries := by
    intro t mem position faulted
    have ended := List.mem_map_of_mem (f := fun t => t.step.2) mem
    rw [outcomes, faulted] at ended
    simp at ended
  have four : tries.length = 4 := by
    simpa using congrArg List.length outcomes
  obtain ⟨flushes, ⟨output, -⟩, ⟨input, -⟩, -⟩ :=
    streams_agree_with_attempts _ _ _ attempted safe
  rw [completed] at flushes
  rw [written] at output
  rw [stored] at input
  refine ⟨_, _, attempted, safe, four, completed, failed, output, flushes, ?_⟩
  exact (List.cons.inj input).2.symm

end Debugger

end FencedTape
