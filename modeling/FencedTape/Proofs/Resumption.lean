import FencedTape.Proofs.Breakpoints
import FencedTape.Proofs.Stream

/-! # Running on after stream failures

`Resumed d stops errors e` says what comes of calling `run` on `d` and again after every stop and
every failure of a stream, until the program has ended.  `quiet` takes the scripts off the streams
and keeps everything else; what is left is the fault-free counterpart.

An action that is carried out does what it does there, and one that fails leaves its counterpart as
it was (`attempt_of_perform`).  Since a failure uses up a mishap, an instruction that is tried again
and again is carried out in the end (`exists_retries`), and its breakpoint is not reported another
time.  So a program runs through its whole execution (`Executes.resumed`). -/

set_option autoImplicit false

namespace FencedTape

namespace Machine

def quiet (m : Machine) : Machine := { m with source := m.source.quiet, sink := m.sink.quiet }

/-- Whatever goes wrong with the streams can be made good by trying again: a failing read is not
taken for the end of the input, and no byte is written whose flush fails. -/
structure Transient (m : Machine) : Prop where
  reads : m.source.Transient
  flushes : m.sink.flushMishaps = []

/-- From `m` to `m'` the streams were called a number of times, and `failures` calls broke down. -/
def Spends (m m' : Machine) (failures : Nat) : Prop :=
  ∃ reads writes, m.source.mishaps.Spent m'.source.mishaps reads ∧
    m.sink.writeMishaps.Spent m'.sink.writeMishaps writes ∧ reads + writes = failures

/-- The number of mishaps that may still strike. -/
def pending (m : Machine) : Nat := m.source.mishaps.length + m.sink.writeMishaps.length

theorem Spends.refl (m : Machine) : Spends m m 0 := ⟨0, 0, .refl _, .refl _, rfl⟩

theorem Spends.trans {m m' m'' : Machine} {i j : Nat} (first : Spends m m' i)
    (rest : Spends m' m'' j) : Spends m m'' (i + j) := by
  obtain ⟨r, w, reads, writes, rfl⟩ := first
  obtain ⟨r', w', reads', writes', rfl⟩ := rest
  exact ⟨r + r', w + w', reads.trans reads', writes.trans writes', by omega⟩

theorem Spends.pending_le {m m' : Machine} {failures : Nat} (h : Spends m m' failures) :
    m'.pending + failures ≤ m.pending := by
  obtain ⟨r, w, reads, writes, rfl⟩ := h
  have readsLeft := reads.length_le
  have writesLeft := writes.length_le
  simp only [pending]
  omega

inductive Attempt (m q : Machine) : Machine × Outcome → Prop
  | carried (m' : Machine) (same : m'.quiet = q) (transient : m'.Transient)
      (spent : m.Spends m' 0) : Attempt m q (m', .done)
  | failed (m' : Machine) (cause : StreamError) (same : m'.quiet = m.quiet)
      (transient : m'.Transient) (spent : m.Spends m' 1) : Attempt m q (m', .failed cause)

/-! ## Actions -/

theorem store_quiet (m : Machine) (position : Int64) (value : UInt8) :
    m.quiet.store position value =
      ((m.store position value).1.quiet, (m.store position value).2) := by
  simp only [store, quiet]
  split <;> rfl

theorem streams_of_store {m m' : Machine} {position : Int64} {value : UInt8} {o : Outcome}
    (h : m.store position value = (m', o)) : m'.source = m.source ∧ m'.sink = m.sink := by
  rw [store] at h
  split at h
  · cases h
    exact ⟨rfl, rfl⟩
  · cases h
    exact ⟨rfl, rfl⟩

theorem attempt_of_store {m n q : Machine} {position : Int64} {value : UInt8}
    (transient : n.Transient) (spent : m.Spends n 0)
    (h : n.quiet.store position value = (q, .done)) : Attempt m q (n.store position value) := by
  rcases stored : n.store position value with ⟨n', o⟩
  obtain ⟨source, sink⟩ := streams_of_store stored
  rw [store_quiet, stored] at h
  obtain ⟨same, rfl⟩ := Prod.mk.inj h
  refine .carried n' same ⟨source ▸ transient.reads, sink ▸ transient.flushes⟩ ?_
  rw [Spends, source, sink]
  exact spent

theorem attempt_of_update {m q : Machine} {position : Int64} {f : UInt8 → UInt8}
    (transient : m.Transient) (h : m.quiet.update position f = (q, .done)) :
    Attempt m q (m.update position f) := by
  simp only [update] at h ⊢
  split at h
  · next value loaded =>
      have loaded' : m.tape.load? position = some value := loaded
      rw [loaded']
      exact attempt_of_store transient (.refl m) h
  · cases h

theorem attempt_of_read {m q : Machine} {position : Int64} (transient : m.Transient)
    (h : m.quiet.read position = (q, .done)) : Attempt m q (m.read position) := by
  obtain ⟨tape, dp, atEnd, source, sink⟩ := m
  rcases Source.receive_cases transient.reads with
    ⟨r, t, received, quietly, spent⟩ | ⟨cause, t, received, same, spent⟩
  · have transient' : (⟨tape, dp, atEnd, t, sink⟩ : Machine).Transient :=
      ⟨transient.reads.spent spent, transient.flushes⟩
    have spent' : Spends ⟨tape, dp, atEnd, source, sink⟩ ⟨tape, dp, atEnd, t, sink⟩ 0 :=
      ⟨0, 0, spent, .refl _, rfl⟩
    simp only [read, received]
    simp only [read, quiet, quietly] at h
    cases r with
    | byte value => exact attempt_of_store transient' spent' h
    | ended =>
        cases atEnd with
        | sentinel value => exact attempt_of_store transient' spent' h
        | unchanged => exact .carried _ (Prod.mk.inj h).1 transient' spent'
    | failed e => cases h
  · simp only [read, received]
    refine .failed _ cause ?_ ?_ ?_
    · simp only [quiet, same]
    · exact ⟨transient.reads.spent spent, transient.flushes⟩
    · exact ⟨1, 0, spent, .refl _, rfl⟩

theorem attempt_of_write {m q : Machine} {position : Int64} (transient : m.Transient)
    (h : m.quiet.write position = (q, .done)) : Attempt m q (m.write position) := by
  have sink : m.quiet.sink = m.sink.quiet := rfl
  simp only [write] at h ⊢
  split at h
  · cases h
  · next value loaded =>
      have loaded' : m.tape.load? position = some value := loaded
      simp only [loaded']
      rcases Sink.emit_cases transient.flushes value with
        ⟨t, emitted, quietly, flushes, spent⟩ | ⟨cause, t, emitted, same, flushes, spent⟩
      · simp only [sink, quietly] at h
        simp only [emitted]
        exact .carried { m with sink := t } (Prod.mk.inj h).1 ⟨transient.reads, flushes⟩
          ⟨0, 0, .refl _, spent, rfl⟩
      · simp only [emitted]
        refine .failed { m with sink := t } cause ?_ ⟨transient.reads, flushes⟩ ?_
        · simp only [quiet, same]
        · exact ⟨0, 1, .refl _, spent, rfl⟩

theorem attempt_of_perform {m q : Machine} {action : Action} (transient : m.Transient)
    (h : m.quiet.perform action = (q, .done)) : Attempt m q (m.perform action) := by
  cases action with
  | adjust offset delta => exact attempt_of_update transient h
  | select delta =>
      exact .carried _ (Prod.mk.inj h).1 ⟨transient.reads, transient.flushes⟩ (.refl m)
  | read offset => exact attempt_of_read transient h
  | write offset => exact attempt_of_write transient h
  | set offset value => exact attempt_of_store transient (.refl m) h
  | multiplyAdd offset factor =>
      simp only [perform] at h ⊢
      split at h
      · next value loaded =>
          have loaded' : m.tape.load? m.dp = some value := loaded
          rw [loaded']
          exact attempt_of_update transient h
      · cases h
  | scan direction =>
      simp only [perform] at h ⊢
      split at h
      · next dp scanned =>
          have scanned' : m.tape.scan m.dp direction = .ok dp := scanned
          rw [scanned']
          exact .carried _ (Prod.mk.inj h).1 ⟨transient.reads, transient.flushes⟩ (.refl m)
      · cases h

end Machine

namespace Debugger

def quiet (d : Debugger) : Debugger := { d with machine := d.machine.quiet }

inductive Resumed :
    Debugger → List (Nat × Debugger) → List StreamError → Debugger → Prop
  | done {d e : Debugger} (returned : Returns d e .finished) : Resumed d [] [] e
  | stop {d e f : Debugger} {address : Nat} {stops : List (Nat × Debugger)}
      {errors : List StreamError} (returned : Returns d e (.stopped address))
      (rest : Resumed e stops errors f) : Resumed d ((address, e) :: stops) errors f
  | failure {d e f : Debugger} {cause : StreamError} {stops : List (Nat × Debugger)}
      {errors : List StreamError} (returned : Returns d e (.failed cause))
      (rest : Resumed e stops errors f) : Resumed d stops (cause :: errors) f

theorem Resumed.of_running {d e f : Debugger} {stops : List (Nat × Debugger)}
    {errors : List StreamError} (turn : d.advance = (e, .running))
    (rest : Resumed e stops errors f) : Resumed d stops errors f := by
  cases rest with
  | done returned => exact .done (returned.of_running turn)
  | stop returned more => exact .stop (returned.of_running turn) more
  | failure returned more => exact .failure (returned.of_running turn) more

theorem Resumed.unique {d e f : Debugger} {stops stops' : List (Nat × Debugger)}
    {errors errors' : List StreamError} (left : Resumed d stops errors e)
    (right : Resumed d stops' errors' f) : stops = stops' ∧ errors = errors' ∧ e = f := by
  induction left generalizing stops' errors' with
  | done returned =>
      cases right with
      | done returned' => exact ⟨rfl, rfl, (returned.unique returned').1⟩
      | stop returned' _ => cases (returned.unique returned').2
      | failure returned' _ => cases (returned.unique returned').2
  | stop returned _ ih =>
      cases right with
      | done returned' => cases (returned.unique returned').2
      | stop returned' rest =>
          obtain ⟨rfl, same⟩ := returned.unique returned'
          cases same
          obtain ⟨rfl, ends⟩ := ih rest
          exact ⟨rfl, ends⟩
      | failure returned' _ => cases (returned.unique returned').2
  | failure returned _ ih =>
      cases right with
      | done returned' => cases (returned.unique returned').2
      | stop returned' _ => cases (returned.unique returned').2
      | failure returned' rest =>
          obtain ⟨rfl, same⟩ := returned.unique returned'
          cases same
          obtain ⟨rfl, rfl, ends⟩ := ih rest
          exact ⟨rfl, rfl, ends⟩

/-! ## Trying an instruction again -/

inductive Attempt (d q : Debugger) : Debugger × Outcome → Prop
  | carried (e : Debugger) (same : e.quiet = q) (transient : e.machine.Transient)
      (spent : d.machine.Spends e.machine 0) : Attempt d q (e, .done)
  | failed (e : Debugger) (cause : StreamError) (same : e.quiet = d.quiet)
      (transient : e.machine.Transient) (spent : d.machine.Spends e.machine 1) :
      Attempt d q (e, .failed cause)

theorem attempt_of_branch {d q : Debugger} {ifZero ifNonzero : Nat}
    (transient : d.machine.Transient) (h : d.quiet.branch ifZero ifNonzero = (q, .done)) :
    Attempt d q (d.branch ifZero ifNonzero) := by
  simp only [branch] at h ⊢
  split at h
  · cases h
  · next value loaded =>
      have loaded' : d.machine.tape.load? d.machine.dp = some value := loaded
      rw [loaded']
      exact .carried _ (Prod.mk.inj h).1 transient (.refl _)

theorem attempt_of_step {d q : Debugger} (live : d.isDone = false)
    (transient : d.machine.Transient) (h : d.quiet.step = (q, .done)) : Attempt d q d.step := by
  obtain ⟨instr, fetched⟩ := exists_get?_of_live live
  have fetched' : d.quiet.program.get? d.quiet.ip = some instr := fetched
  cases instr with
  | act action =>
      rcases quietly : d.quiet.machine.perform action with ⟨n, o⟩
      by_cases done : o = .done
      · subst done
        rw [step_of_act fetched' quietly] at h
        obtain ⟨rfl, -⟩ := Prod.mk.inj h
        have attempt := Machine.attempt_of_perform transient quietly
        rcases performed : d.machine.perform action with ⟨machine, outcome⟩
        rw [performed] at attempt
        cases attempt with
        | carried _ same transient' spent =>
            rw [step_of_act fetched performed]
            refine .carried _ ?_ transient' spent
            rw [← same]
            rfl
        | failed _ cause same transient' spent =>
            rw [step_of_act_stuck fetched performed (by simp)]
            refine .failed _ cause ?_ transient' spent
            simp only [quiet, same]
      · rw [step_of_act_stuck fetched' quietly done] at h
        exact absurd (Prod.mk.inj h).2 done
  | loopOpen =>
      rw [step_of_loopOpen fetched'] at h
      rw [step_of_loopOpen fetched]
      exact attempt_of_branch transient h
  | loopClose =>
      rw [step_of_loopClose fetched'] at h
      rw [step_of_loopClose fetched]
      exact attempt_of_branch transient h

/-- An instruction whose counterpart is carried out is carried out in the end, after as many
failures as there are breakdowns on the way. -/
theorem exists_retries {d q : Debugger} (live : d.isDone = false)
    (free : d.atBreakpoint = false) (transient : d.machine.Transient)
    (h : d.quiet.step = (q, .done)) :
    ∃ e errors, e.quiet = q ∧ e.machine.Transient ∧
      d.machine.Spends e.machine errors.length ∧
      ∀ stops later f, Resumed e stops later f → Resumed d stops (errors ++ later) f := by
  induction pending : d.machine.pending using Nat.strongRecOn generalizing d with
  | ind bound ih =>
      have attempt := attempt_of_step live transient h
      rcases step : d.step with ⟨e, o⟩
      rw [step] at attempt
      cases attempt with
      | carried _ same transient' spent =>
          have turn := advance_of_carried live free step
          exact ⟨e, [], same, transient', spent, fun stops later f rest => rest.of_running turn⟩
      | failed _ cause same transient' spent =>
          -- nothing has changed for the instruction but the mishaps that are left
          have turn := advance_of_stuck live free step (by simp)
          have returned := returns_of_advance turn (Outcome.ending_ne_running _)
          have fewer : e.machine.pending < bound := by
            have left := spent.pending_le
            omega
          have live' : e.isDone = false := by
            have kept := congrArg isDone same
            exact kept.trans live
          have free' : e.atBreakpoint = false := by
            have kept := congrArg atBreakpoint same
            exact kept.trans free
          obtain ⟨f, errors, reached, transient'', spent', resume⟩ :=
            ih _ fewer live' free' transient' (same ▸ h) rfl
          refine ⟨f, cause :: errors, reached, transient'', ?_, ?_⟩
          · rw [List.length_cons, Nat.add_comm]
            exact spent.trans spent'
          · intro stops later g rest
            exact .failure returned (resume stops later g rest)

/-! ## Whole programs -/

theorem Executes.resumed {n : Nat} {q q' : Debugger} (h : Executes q n q' .done)
    (breakpoints : Std.ExtTreeSet Nat) {d : Debugger} (point : d.quiet = q.armed breakpoints none)
    (transient : d.machine.Transient) :
    ∃ stops errors f, Resumed d stops errors f ∧ f.quiet = q'.armed breakpoints none ∧
      stops.map (fun stop => (stop.1, stop.2.quiet)) = q.stops breakpoints n ∧
      d.machine.Spends f.machine errors.length := by
  generalize eq : Outcome.done = o at h
  induction h generalizing d with
  | @finished q ended =>
      have ended' : d.isDone = true := by
        have same := congrArg isDone point
        exact same.trans ended
      have returned := returns_of_advance (advance_of_isDone ended') (by simp)
      exact ⟨[], [], d, .done returned, point, rfl, .refl _⟩
  | stuck live step ne => exact absurd eq.symm ne
  | @head n q q₁ q' o live step rest ih =>
      obtain ⟨-, -, -, armedStep⟩ := exists_of_carried live step
      have live' : d.isDone = false := by
        have same := congrArg isDone point
        exact same.trans live
      have address : d.ip = q.ip := by
        have same := congrArg ip point
        exact same
      rw [stops_succ, step]
      cases set : breakpoints.contains q.ip with
      | true =>
          -- the first call stops here and sets the mark, which lasts until the instruction is
          -- carried out: no failure in between leads to another stop
          have here : d.atBreakpoint = true := by
            have same := congrArg atBreakpoint point
            have inside := isDone_eq_false_iff.mp live
            exact same.trans (by simp [atBreakpoint, armed, inside, set])
          have turn := advance_of_atBreakpoint live' here
          have marked : ({ d with pausedAt := some d.ip } : Debugger).quiet =
              q.armed breakpoints (some q.ip) :=
            congrArg (fun e : Debugger => { e with pausedAt := some e.ip }) point
          have free : ({ d with pausedAt := some d.ip } : Debugger).atBreakpoint = false := by
            have same := congrArg atBreakpoint marked
            exact same.trans (atBreakpoint_armed_of_marked q breakpoints)
          obtain ⟨e, errors, reached, transient', spent, resume⟩ :=
            exists_retries (d := { d with pausedAt := some d.ip }) live' free transient
              (marked ▸ armedStep breakpoints (some q.ip))
          obtain ⟨stops, later, f, resumed, final, same, spent'⟩ := ih reached transient' eq
          refine ⟨_, errors ++ later, f, .stop (returns_of_advance turn (by simp))
            (resume stops later f resumed), final, ?_, ?_⟩
          · rw [List.map_cons, same, marked, address, if_pos rfl]
            rfl
          · rw [List.length_append]
            exact spent.trans spent'
      | false =>
          have free : d.atBreakpoint = false := by
            have same := congrArg atBreakpoint point
            exact same.trans (atBreakpoint_armed_of_unset set none)
          obtain ⟨e, errors, reached, transient', spent, resume⟩ :=
            exists_retries live' free transient (point ▸ armedStep breakpoints none)
          obtain ⟨stops, later, f, resumed, final, same, spent'⟩ := ih reached transient' eq
          refine ⟨stops, errors ++ later, f, resume stops later f resumed, final, same, ?_⟩
          rw [List.length_append]
          exact spent.trans spent'

/-- Failures of streams that do not last are not seen by a program that is run on after them.  If
it comes to its end without them, then calling `run` again after every stop and every failure comes
to an end in one way only: with the stops that it has without failures and the same debugger but
for the scripts of its streams.  There is one failure for each breakdown that struck. -/
theorem resumption_is_transparent (p : Program) (m : Machine)
    (breakpoints : Std.ExtTreeSet Nat) (e : Debugger) (transient : m.Transient)
    (ends : Returns (fresh p m.quiet) e .finished) :
    ∃ stops errors final,
      (∀ s l f, Resumed ((fresh p m).armed breakpoints none) s l f ↔
        s = stops ∧ l = errors ∧ f = final) ∧
      Driven ((fresh p m.quiet).armed breakpoints none)
        (stops.map fun stop => (stop.1, stop.2.quiet)) final.quiet .finished ∧
      final.quiet = e.armed breakpoints none ∧ m.Spends final.machine errors.length := by
  obtain ⟨n, executed⟩ := (returns_iff_executes (o := .done) rfl).mp ends
  obtain ⟨stops, errors, final, resumed, reached, same, spent⟩ :=
    executed.resumed breakpoints (d := (fresh p m).armed breakpoints none) rfl transient
  obtain ⟨mark, driven, unmarked⟩ := executed.driven breakpoints
  cases unmarked rfl
  refine ⟨stops, errors, final, ?_, ?_, reached, spent⟩
  · intro s l f
    constructor
    · intro other
      exact other.unique resumed
    · rintro ⟨rfl, rfl, rfl⟩
      exact resumed
  · rw [same, reached]
    exact driven

def echo : Program where
  code := #[.act (.read 0), .act (.write 0)]
  jumps := #[0, 1]
  paired := rfl

/-- A machine whose streams fail three times before they move a byte. -/
def flaky : Machine :=
  { idle with
    source :=
      { bytes := [65]
        mishaps := [(0, .breakdown (.failed "boom")), (0, .interrupted "interrupted"),
          (0, .breakdown (.failed "not ready"))] }
    sink := { writeMishaps := [(0, .breakdown .empty)] } }

theorem resumed_flaky :
    ∃ stops final,
      Resumed ((fresh echo flaky).armed {0} none) stops
        [.failed "boom", .failed "not ready", .incompleteWrite] final ∧
      stops.map Prod.fst = [0] ∧ final.machine.sink.output = #[65] ∧
      flaky.Spends final.machine 3 ∧
      ∃ stops', Driven ((fresh echo flaky.quiet).armed {0} none) stops' final.quiet .finished ∧
        stops'.map Prod.fst = [0] := by
  have transient : flaky.Transient := by
    refine ⟨?_, rfl⟩
    intro b mem
    simp only [flaky, Script.mishaps, List.map_cons, List.map_nil, List.mem_cons,
      Mishap.breakdown.injEq, reduceCtorEq, List.not_mem_nil, or_false, false_or] at mem
    rcases mem with rfl | rfl
    · exact ⟨_, rfl⟩
    · exact ⟨_, rfl⟩
  have ends : Returns (fresh echo flaky.quiet) ((fresh echo flaky.quiet).run 3).1 .finished :=
    ⟨by decide, 3, Prod.ext rfl (by decide)⟩
  obtain ⟨d₁, stopped, d₂, first, d₃, second, d₄, third, d₅, finished, output⟩ :
      ∃ d₁, ((fresh echo flaky).armed {0} none).run 1 = (d₁, .stopped 0) ∧
      ∃ d₂, d₁.run 1 = (d₂, .failed (.failed "boom")) ∧
      ∃ d₃, d₂.run 1 = (d₃, .failed (.failed "not ready")) ∧
      ∃ d₄, d₃.run 2 = (d₄, .failed .incompleteWrite) ∧
      ∃ d₅, d₄.run 2 = (d₅, .finished) ∧ d₅.machine.sink.output = #[65] :=
    ⟨_, rfl, _, rfl, _, rfl, _, rfl, _, rfl, rfl⟩
  have resumed : Resumed ((fresh echo flaky).armed {0} none) [(0, d₁)]
      [.failed "boom", .failed "not ready", .incompleteWrite] d₅ :=
    .stop ⟨by simp, 1, stopped⟩ <| .failure ⟨by simp, 1, first⟩ <|
      .failure ⟨by simp, 1, second⟩ <| .failure ⟨by simp, 2, third⟩ <|
        .done ⟨by simp, 2, finished⟩
  obtain ⟨stops, errors, final, unique, driven, -, spent⟩ :=
    resumption_is_transparent echo flaky {0} _ transient ends
  obtain ⟨rfl, rfl, rfl⟩ := (unique _ _ _).mp resumed
  exact ⟨_, _, resumed, rfl, output, spent, _, driven, rfl⟩

end Debugger

end FencedTape
