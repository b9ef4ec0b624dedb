import FencedTape.Debugger
import FencedTape.Proofs.Machine
import Mathlib.Logic.Function.Iterate

/-! # Executions

`Carries n d e` says that `n` instructions are carried out one after the other, from `d` to `e`,
and `Executes d n e o` that after `n` instructions the execution from `d` is over: the program has
ended, or the next instruction came to the outcome `o`.  Both are about the instructions alone:
breakpoints and pause marks take no part in them.

A run has a limit on its turns.  `Returns d e progress` leaves it out: some limit is large enough
for the run to come to its own end.  Without breakpoints a run returns exactly when the execution
is over (`returns_iff_executes`), and there is only one way in which it can be
(`Executes.unique`). -/

set_option autoImplicit false

namespace FencedTape

/-- How a run ends whose last instruction came to this outcome. -/
def Outcome.ending : Outcome → Progress
  | .done => .finished
  | .failed e => .failed e
  | .fault position => .fault position

theorem Outcome.ending_ne_running (o : Outcome) : o.ending ≠ .running := by
  cases o <;> simp [ending]

theorem Outcome.ending_ne_stopped (o : Outcome) (address : Nat) : o.ending ≠ .stopped address := by
  cases o <;> simp [ending]

theorem Outcome.ending_injective {o o' : Outcome} (h : o.ending = o'.ending) : o = o' := by
  cases o <;> cases o' <;> simp_all [ending]

/-- Where larger limits change nothing, all limits that suffice give the same result. -/
theorem unique_of_limits {α β : Type} {result : Nat → α × β} {running : β}
    (stable : ∀ {m n}, (result m).2 ≠ running → m ≤ n → result n = result m) {a a' : α} {b b' : β}
    (left : b ≠ running ∧ ∃ limit, result limit = (a, b))
    (right : b' ≠ running ∧ ∃ limit, result limit = (a', b')) : a = a' ∧ b = b' := by
  obtain ⟨ne, m, first⟩ := left
  obtain ⟨ne', n, second⟩ := right
  have one := stable (by rwa [first]) (Nat.le_max_left m n)
  have two := stable (by rwa [second]) (Nat.le_max_right m n)
  rw [one, first, second] at two
  exact Prod.mk.inj two

namespace Debugger

/-- A debugger at the start of a program, without breakpoints. -/
def fresh (program : Program) (machine : Machine) : Debugger := { program, machine }

/-- The same point of an execution, with other breakpoints and another pause mark. -/
def armed (d : Debugger) (breakpoints : Std.ExtTreeSet Nat) (pausedAt : Option Nat) : Debugger :=
  { d with breakpoints, pausedAt }

/-- The point of an execution at which a debugger stands. -/
def bare (d : Debugger) : Debugger := d.armed ∅ none

/-- The debugger after `count` calls of `step`. -/
def stepped (d : Debugger) (count : Nat) : Debugger := (fun e : Debugger => e.step.1)^[count] d

inductive Carries : Nat → Debugger → Debugger → Prop
  | refl (d : Debugger) : Carries 0 d d
  | head {n : Nat} {d e f : Debugger} (live : d.isDone = false) (step : d.step = (e, .done))
      (rest : Carries n e f) : Carries (n + 1) d f

inductive Executes : Debugger → Nat → Debugger → Outcome → Prop
  | finished {d : Debugger} (ended : d.isDone = true) : Executes d 0 d .done
  | stuck {d e : Debugger} {o : Outcome} (live : d.isDone = false) (step : d.step = (e, o))
      (ne : o ≠ .done) : Executes d 0 e o
  | head {n : Nat} {d e f : Debugger} {o : Outcome} (live : d.isDone = false)
      (step : d.step = (e, .done)) (rest : Executes e n f o) : Executes d (n + 1) f o

/-- A call of `run` on `d` returns `progress` and leaves `e`. -/
def Returns (d e : Debugger) (progress : Progress) : Prop :=
  progress ≠ .running ∧ ∃ limit, d.run limit = (e, progress)

/-! ## One step -/

theorem isDone_eq_true_iff {d : Debugger} : d.isDone = true ↔ d.program.size ≤ d.ip := by
  simp [isDone]

theorem isDone_eq_false_iff {d : Debugger} : d.isDone = false ↔ d.ip < d.program.size := by
  simp [isDone]

theorem isDone_of_get? {d : Debugger} {instr : Instr} (h : d.program.get? d.ip = some instr) :
    d.isDone = false := by
  rw [isDone_eq_false_iff]
  obtain ⟨bound, -⟩ := Array.getElem?_eq_some_iff.mp h
  exact bound

theorem exists_get?_of_live {d : Debugger} (live : d.isDone = false) :
    ∃ instr, d.program.get? d.ip = some instr := by
  have inside : d.ip < d.program.code.size := isDone_eq_false_iff.mp live
  exact ⟨_, Array.getElem?_eq_getElem inside⟩

theorem get?_of_isDone {d : Debugger} (h : d.isDone = true) : d.program.get? d.ip = none := by
  rw [isDone_eq_true_iff] at h
  exact Array.getElem?_eq_none h

theorem step_of_isDone {d : Debugger} (h : d.isDone = true) : d.step = (d, .done) := by
  rw [step, get?_of_isDone h]

theorem step_of_act {d : Debugger} {action : Action} {machine : Machine}
    (fetched : d.program.get? d.ip = some (.act action))
    (performed : d.machine.perform action = (machine, .done)) :
    d.step = ({ d with machine }.arrive (d.ip + 1), .done) := by
  simp only [step, fetched, performed]

theorem step_of_act_stuck {d : Debugger} {action : Action} {machine : Machine} {o : Outcome}
    (fetched : d.program.get? d.ip = some (.act action))
    (performed : d.machine.perform action = (machine, o)) (ne : o ≠ .done) :
    d.step = ({ d with machine }, o) := by
  cases o with
  | done => exact absurd rfl ne
  | failed e => simp only [step, fetched, performed]
  | fault position => simp only [step, fetched, performed]

theorem step_eq_perform {d : Debugger} {action : Action}
    (fetched : d.program.get? d.ip = some (.act action)) :
    d.step.1.machine = (d.machine.perform action).1 ∧
      d.step.2 = (d.machine.perform action).2 := by
  rcases performed : d.machine.perform action with ⟨machine, o⟩
  by_cases done : o = .done
  · subst done
    rw [step_of_act fetched performed]
    exact ⟨rfl, rfl⟩
  · rw [step_of_act_stuck fetched performed done]
    exact ⟨rfl, rfl⟩

theorem step_of_loopOpen {d : Debugger} (fetched : d.program.get? d.ip = some .loopOpen) :
    d.step = d.branch (d.program.jumpTarget d.ip) (d.ip + 1) := by
  rw [step, fetched]

theorem step_of_loopClose {d : Debugger} (fetched : d.program.get? d.ip = some .loopClose) :
    d.step = d.branch (d.ip + 1) (d.program.jumpTarget d.ip) := by
  rw [step, fetched]

theorem branch_of_none {d : Debugger} (h : d.machine.tape.load? d.machine.dp = none)
    (ifZero ifNonzero : Nat) : d.branch ifZero ifNonzero = (d, .fault d.machine.dp) := by
  rw [branch, h]

theorem branch_of_some {d : Debugger} {value : UInt8}
    (h : d.machine.tape.load? d.machine.dp = some value) (ifZero ifNonzero : Nat) :
    d.branch ifZero ifNonzero = (d.arrive (if value = 0 then ifZero else ifNonzero), .done) := by
  rw [branch, h]

theorem machine_branch (d : Debugger) (ifZero ifNonzero : Nat) :
    (d.branch ifZero ifNonzero).1.machine = d.machine := by
  rw [branch]
  split <;> rfl

/-- All that the next instruction can do, whatever the breakpoints and the pause mark are: it is
carried out and leads to some address, or nothing but the machine changes. -/
inductive NextStep (d : Debugger) : Prop
  | carried (machine : Machine) (address : Nat)
      (step : ∀ breakpoints mark, (d.armed breakpoints mark).step =
        (({ d with machine }.arrive address).armed breakpoints none, .done))
  | stuck (machine : Machine) (o : Outcome) (ne : o ≠ .done)
      (step : ∀ breakpoints mark, (d.armed breakpoints mark).step =
        ({ d with machine }.armed breakpoints mark, o))

theorem nextStep_of_branch {d : Debugger} {ifZero ifNonzero : Nat}
    (h : ∀ breakpoints mark, (d.armed breakpoints mark).step =
      (d.armed breakpoints mark).branch ifZero ifNonzero) : NextStep d := by
  cases loaded : d.machine.tape.load? d.machine.dp with
  | none =>
      refine .stuck d.machine (.fault d.machine.dp) (by simp) ?_
      intro breakpoints mark
      have loaded' : (d.armed breakpoints mark).machine.tape.load?
          (d.armed breakpoints mark).machine.dp = none := loaded
      rw [h, branch_of_none loaded']
      rfl
  | some value =>
      refine .carried d.machine (if value = 0 then ifZero else ifNonzero) ?_
      intro breakpoints mark
      have loaded' : (d.armed breakpoints mark).machine.tape.load?
          (d.armed breakpoints mark).machine.dp = some value := loaded
      rw [h, branch_of_some loaded']
      rfl

theorem nextStep {d : Debugger} (live : d.isDone = false) : NextStep d := by
  obtain ⟨instr, fetched⟩ := exists_get?_of_live live
  have fetched' : ∀ breakpoints mark, (d.armed breakpoints mark).program.get?
      (d.armed breakpoints mark).ip = some instr := fun _ _ => fetched
  cases instr with
  | act action =>
      rcases performed : d.machine.perform action with ⟨machine, o⟩
      by_cases carried : o = .done
      · subst carried
        refine .carried machine (d.ip + 1) ?_
        intro breakpoints mark
        exact step_of_act (fetched' breakpoints mark) performed
      · refine .stuck machine o carried ?_
        intro breakpoints mark
        exact step_of_act_stuck (fetched' breakpoints mark) performed carried
  | loopOpen =>
      have h : ∀ breakpoints mark, (d.armed breakpoints mark).step =
          (d.armed breakpoints mark).branch (d.program.jumpTarget d.ip) (d.ip + 1) :=
        fun breakpoints mark => step_of_loopOpen (fetched' breakpoints mark)
      exact nextStep_of_branch h
  | loopClose =>
      have h : ∀ breakpoints mark, (d.armed breakpoints mark).step =
          (d.armed breakpoints mark).branch (d.ip + 1) (d.program.jumpTarget d.ip) :=
        fun breakpoints mark => step_of_loopClose (fetched' breakpoints mark)
      exact nextStep_of_branch h

theorem exists_of_carried {d e : Debugger} (live : d.isDone = false) (h : d.step = (e, .done)) :
    ∃ machine address, e = { d with machine }.arrive address ∧
      ∀ breakpoints mark, (d.armed breakpoints mark).step = (e.armed breakpoints none, .done) := by
  cases nextStep live with
  | carried machine address step =>
      have own : d.step = ({ d with machine }.arrive address, .done) :=
        step d.breakpoints d.pausedAt
      obtain ⟨rfl, -⟩ := Prod.mk.inj (h.symm.trans own)
      exact ⟨machine, address, rfl, step⟩
  | stuck machine o ne step =>
      have own : d.step = ({ d with machine }, o) := step d.breakpoints d.pausedAt
      exact absurd (Prod.mk.inj (h.symm.trans own)).2.symm ne

theorem exists_of_stuck {d e : Debugger} {o : Outcome} (live : d.isDone = false)
    (h : d.step = (e, o)) (ne : o ≠ .done) :
    ∃ machine, e = { d with machine } ∧
      ∀ breakpoints mark, (d.armed breakpoints mark).step = (e.armed breakpoints mark, o) := by
  cases nextStep live with
  | carried machine address step =>
      have own : d.step = ({ d with machine }.arrive address, .done) :=
        step d.breakpoints d.pausedAt
      exact absurd (Prod.mk.inj (h.symm.trans own)).2 ne
  | stuck machine o' ne' step =>
      have own : d.step = ({ d with machine }, o') := step d.breakpoints d.pausedAt
      obtain ⟨rfl, rfl⟩ := Prod.mk.inj (h.symm.trans own)
      exact ⟨machine, rfl, step⟩

theorem steps_of_carried {d e : Debugger} (live : d.isDone = false) (h : d.step = (e, .done)) :
    e.steps = d.steps + 1 := by
  obtain ⟨machine, address, rfl, -⟩ := exists_of_carried live h
  rfl

theorem breakpoints_of_step {d e : Debugger} {o : Outcome} (h : d.step = (e, o)) :
    e.breakpoints = d.breakpoints := by
  have kept := breakpoints_step d
  rwa [h] at kept

theorem program_of_step {d e : Debugger} {o : Outcome} (h : d.step = (e, o)) :
    e.program = d.program := by
  have kept := program_step d
  rwa [h] at kept

/-! ## Many steps -/

theorem Carries.trans {m n : Nat} {d e f : Debugger} (first : Carries m d e)
    (rest : Carries n e f) : Carries (m + n) d f := by
  induction first with
  | refl d => simpa using rest
  | head live step _ ih =>
      rw [Nat.succ_add]
      exact .head live step (ih rest)

theorem Carries.executes {m n : Nat} {d e f : Debugger} {o : Outcome} (first : Carries m d e)
    (rest : Executes e n f o) : Executes d (m + n) f o := by
  induction first with
  | refl d => simpa using rest
  | head live step _ ih =>
      rw [Nat.succ_add]
      exact .head live step (ih rest)

theorem Carries.steps {n : Nat} {d e : Debugger} (h : Carries n d e) :
    e.steps = d.steps + n := by
  induction h with
  | refl d => rfl
  | head live step _ ih =>
      rw [ih, steps_of_carried live step]
      omega

theorem Carries.program {n : Nat} {d e : Debugger} (h : Carries n d e) :
    e.program = d.program := by
  induction h with
  | refl d => rfl
  | head _ step _ ih => rw [ih, program_of_step step]

/-- Carrying out instructions is calling `step` that often, and every call succeeds. -/
theorem Carries.stepped {n : Nat} {d e : Debugger} (h : Carries n d e) :
    d.stepped n = e ∧ ∀ i < n, Carries i d (d.stepped i) ∧
      (d.stepped i).isDone = false ∧ (d.stepped i).step.2 = .done := by
  induction h with
  | refl d => exact ⟨rfl, fun i hi => absurd hi (Nat.not_lt_zero i)⟩
  | @head n d e f live step rest ih =>
      have shift : ∀ i, d.stepped (i + 1) = e.stepped i := by
        intro i
        rw [Debugger.stepped, Function.iterate_succ_apply, step]
        rfl
      refine ⟨(shift n).trans ih.1, ?_⟩
      intro i hi
      cases i with
      | zero => exact ⟨.refl d, live, by simp [Debugger.stepped, step]⟩
      | succ i =>
          obtain ⟨reached, more, carried⟩ := ih.2 i (by omega)
          rw [shift]
          exact ⟨.head live step reached, more, carried⟩

theorem Executes.steps {n : Nat} {d e : Debugger} {o : Outcome} (h : Executes d n e o) :
    e.steps = d.steps + n := by
  induction h with
  | finished ended => rfl
  | stuck live step ne =>
      obtain ⟨machine, rfl, -⟩ := exists_of_stuck live step ne
      rfl
  | head live step _ ih =>
      rw [ih, steps_of_carried live step]
      omega

theorem Executes.carries {n : Nat} {d e : Debugger} (h : Executes d n e .done) :
    Carries n d e ∧ e.isDone = true := by
  generalize eq : Outcome.done = o at h
  induction h with
  | finished ended => exact ⟨.refl _, ended⟩
  | stuck live step ne => exact absurd eq.symm ne
  | head live step _ ih =>
      obtain ⟨carried, ended⟩ := ih eq
      exact ⟨.head live step carried, ended⟩

/-- Every instruction has one effect, so an execution is over in one way at most. -/
theorem Executes.unique {m n : Nat} {d e f : Debugger} {o o' : Outcome}
    (left : Executes d m e o) (right : Executes d n f o') : m = n ∧ e = f ∧ o = o' := by
  induction left generalizing n with
  | finished ended =>
      cases right with
      | finished _ => exact ⟨rfl, rfl, rfl⟩
      | stuck live _ _ => exact absurd (ended.symm.trans live) (by simp)
      | head live _ _ => exact absurd (ended.symm.trans live) (by simp)
  | stuck live step ne =>
      cases right with
      | finished ended => exact absurd (ended.symm.trans live) (by simp)
      | stuck _ step' _ =>
          obtain ⟨rfl, rfl⟩ := Prod.mk.inj (step.symm.trans step')
          exact ⟨rfl, rfl, rfl⟩
      | head _ step' _ => exact absurd (Prod.mk.inj (step.symm.trans step')).2 ne
  | head live step _ ih =>
      cases right with
      | finished ended => exact absurd (ended.symm.trans live) (by simp)
      | stuck _ step' ne => exact absurd (Prod.mk.inj (step'.symm.trans step)).2 ne
      | head _ step' rest =>
          obtain ⟨rfl, -⟩ := Prod.mk.inj (step.symm.trans step')
          obtain ⟨rfl, same⟩ := ih rest
          exact ⟨rfl, same⟩

/-- No more instructions are carried out than an execution has. -/
theorem Executes.not_carries {n : Nat} {d e : Debugger} {o : Outcome} (h : Executes d n e o)
    (f : Debugger) : ¬ Carries (n + 1) d f := by
  induction h with
  | finished ended =>
      intro more
      cases more with
      | head live _ _ => exact absurd (ended.symm.trans live) (by simp)
  | stuck _ step ne =>
      intro more
      cases more with
      | head _ step' _ => exact ne (Prod.mk.inj (step.symm.trans step')).2
  | head _ step _ ih =>
      intro more
      cases more with
      | head _ step' rest =>
          obtain ⟨rfl, -⟩ := Prod.mk.inj (step.symm.trans step')
          exact ih rest

/-! ## Runs -/

theorem advance_of_isDone {d : Debugger} (h : d.isDone = true) : d.advance = (d, .finished) := by
  rw [advance, if_pos h]

theorem advance_of_atBreakpoint {d : Debugger} (live : d.isDone = false)
    (h : d.atBreakpoint = true) :
    d.advance = ({ d with pausedAt := some d.ip }, .stopped d.ip) := by
  rw [advance, if_neg (by simp [live]), if_pos h]

theorem advance_of_carried {d e : Debugger} (live : d.isDone = false)
    (free : d.atBreakpoint = false) (step : d.step = (e, .done)) : d.advance = (e, .running) := by
  rw [advance, if_neg (by simp [live]), if_neg (by simp [free]), step]

theorem advance_of_stuck {d e : Debugger} {o : Outcome} (live : d.isDone = false)
    (free : d.atBreakpoint = false) (step : d.step = (e, o)) (ne : o ≠ .done) :
    d.advance = (e, o.ending) := by
  rw [advance, if_neg (by simp [live]), if_neg (by simp [free]), step]
  cases o with
  | done => exact absurd rfl ne
  | failed _ => rfl
  | fault _ => rfl

theorem atBreakpoint_of_empty {d : Debugger} (h : d.breakpoints = ∅) :
    d.atBreakpoint = false := by
  simp [atBreakpoint, h]

theorem Returns.unique {d e f : Debugger} {progress progress' : Progress}
    (left : Returns d e progress) (right : Returns d f progress') :
    e = f ∧ progress = progress' :=
  unique_of_limits run_of_le left right

theorem returns_of_advance {d e : Debugger} {progress : Progress}
    (turn : d.advance = (e, progress)) (ne : progress ≠ .running) : Returns d e progress := by
  refine ⟨ne, 1, ?_⟩
  rw [run_succ_of_stop (by rw [turn]; exact ne), turn]

theorem Returns.of_running {d e f : Debugger} {progress : Progress}
    (turn : d.advance = (e, .running)) (rest : Returns e f progress) :
    Returns d f progress := by
  obtain ⟨ne, limit, run⟩ := rest
  exact ⟨ne, limit + 1, (run_succ_of_running turn limit).trans run⟩

/-- All that a run can come to, in terms of the execution: it is on its way, at one of its
breakpoints, or the execution is over. -/
inductive RunResult (d e : Debugger) : Progress → Prop
  | running (n : Nat) (carried : Carries n d.bare e.bare) : RunResult d e .running
  | stopped (n address : Nat) (carried : Carries n d.bare e.bare)
      (set : d.breakpoints.contains address = true) : RunResult d e (.stopped address)
  | complete {progress : Progress} (n : Nat) (o : Outcome) (executed : Executes d.bare n e.bare o)
      (ending : o.ending = progress) : RunResult d e progress

theorem RunResult.of_carried {d e f : Debugger} {progress : Progress}
    (carried : Carries 1 d.bare e.bare) (kept : e.breakpoints = d.breakpoints)
    (rest : RunResult e f progress) : RunResult d f progress := by
  cases rest with
  | running n more => exact .running (1 + n) (carried.trans more)
  | stopped n address more set => exact .stopped (1 + n) address (carried.trans more) (kept ▸ set)
  | complete n o executed ending => exact .complete (1 + n) o (carried.executes executed) ending

theorem runResult (limit : Nat) {d e : Debugger} {progress : Progress}
    (run : d.run limit = (e, progress)) : RunResult d e progress := by
  induction limit generalizing d with
  | zero =>
      obtain ⟨rfl, rfl⟩ := Prod.mk.inj run
      exact .running 0 (.refl _)
  | succ limit ih =>
      cases live : d.isDone with
      | true =>
          have turn := advance_of_isDone live
          rw [run_succ_of_stop (by rw [turn]; simp), turn] at run
          obtain ⟨rfl, rfl⟩ := Prod.mk.inj run
          exact .complete 0 .done (.finished live) rfl
      | false =>
          cases here : d.atBreakpoint with
          | true =>
              have turn := advance_of_atBreakpoint live here
              rw [run_succ_of_stop (by rw [turn]; simp), turn] at run
              obtain ⟨rfl, rfl⟩ := Prod.mk.inj run
              simp only [atBreakpoint, Bool.and_eq_true] at here
              exact .stopped 0 d.ip (.refl _) here.2
          | false =>
              rcases step : d.step with ⟨f, o⟩
              by_cases done : o = .done
              · subst done
                -- the only turn after which the run goes on; all others are its result
                have turn := advance_of_carried live here step
                rw [run_succ_of_running turn] at run
                obtain ⟨-, -, -, bareStep⟩ := exists_of_carried live step
                have carried : Carries 1 d.bare f.bare := .head live (bareStep ∅ none) (.refl _)
                exact (ih run).of_carried carried (breakpoints_of_step step)
              · have turn := advance_of_stuck live here step done
                rw [run_succ_of_stop (by rw [turn]; exact o.ending_ne_running), turn] at run
                obtain ⟨rfl, rfl⟩ := Prod.mk.inj run
                obtain ⟨-, -, bareStep⟩ := exists_of_stuck live step done
                exact .complete 0 o (.stuck live (bareStep ∅ none) done) rfl

/-! ## Runs without breakpoints -/

theorem Executes.returns {n : Nat} {d e : Debugger} {o : Outcome} (h : Executes d n e o)
    (plain : d.breakpoints = ∅) : Returns d e o.ending := by
  induction h with
  | finished ended => exact returns_of_advance (advance_of_isDone ended) (by simp [Outcome.ending])
  | stuck live step ne =>
      exact returns_of_advance (advance_of_stuck live (atBreakpoint_of_empty plain) step ne)
        (Outcome.ending_ne_running _)
  | head live step _ ih =>
      have kept := (breakpoints_of_step step).trans plain
      exact .of_running (advance_of_carried live (atBreakpoint_of_empty plain) step) (ih kept)

theorem Returns.executes {d e : Debugger} {progress : Progress} (bare : d.bare = d)
    (returned : Returns d e progress) : ∃ n o, Executes d n e o ∧ o.ending = progress := by
  have plain : d.breakpoints = ∅ := congrArg breakpoints bare.symm
  have ⟨ne, limit, run⟩ := returned
  cases runResult limit run with
  | running n carried => exact absurd rfl ne
  | stopped n address carried set => simp [plain] at set
  | complete n o executed ending =>
      rw [bare] at executed
      have same := ((executed.returns plain).unique returned).1
      rw [same] at executed
      exact ⟨n, o, executed, ending⟩

/-- Without breakpoints a run returns when the execution is over, and in the same way. -/
theorem returns_iff_executes {d e : Debugger} {o : Outcome} (bare : d.bare = d) :
    Returns d e o.ending ↔ ∃ n, Executes d n e o := by
  constructor
  · intro returned
    obtain ⟨n, o', executed, ending⟩ := returned.executes bare
    cases Outcome.ending_injective ending
    exact ⟨n, executed⟩
  · rintro ⟨n, executed⟩
    exact executed.returns (congrArg breakpoints bare.symm)

/-! ## Streams without mishaps -/

theorem faultFree_of_step {d e : Debugger} {o : Outcome} (live : d.isDone = false)
    (h : d.step = (e, o)) (quiet : d.machine.FaultFree) :
    e.machine.FaultFree ∧ ∀ cause, o ≠ .failed cause := by
  have tests : ∀ ifZero ifNonzero, d.branch ifZero ifNonzero = (e, o) →
      e.machine.FaultFree ∧ ∀ cause, o ≠ .failed cause := by
    intro ifZero ifNonzero taken
    cases loaded : d.machine.tape.load? d.machine.dp with
    | none =>
        rw [branch_of_none loaded] at taken
        cases taken
        exact ⟨quiet, by simp⟩
    | some value =>
        rw [branch_of_some loaded] at taken
        cases taken
        exact ⟨quiet, by simp⟩
  obtain ⟨instr, fetched⟩ := exists_get?_of_live live
  cases instr with
  | act action =>
      rcases performed : d.machine.perform action with ⟨machine, outcome⟩
      have kept := quiet.perform performed
      by_cases done : outcome = .done
      · subst done
        rw [step_of_act fetched performed] at h
        cases h
        exact kept
      · rw [step_of_act_stuck fetched performed done] at h
        cases h
        exact kept
  | loopOpen => exact tests _ _ ((step_of_loopOpen fetched).symm.trans h)
  | loopClose => exact tests _ _ ((step_of_loopClose fetched).symm.trans h)

theorem Carries.faultFree {n : Nat} {d e : Debugger} (h : Carries n d e)
    (quiet : d.machine.FaultFree) : e.machine.FaultFree := by
  induction h with
  | refl d => exact quiet
  | head live step _ ih => exact ih (faultFree_of_step live step quiet).1

theorem Executes.not_failed {n : Nat} {d e : Debugger} {o : Outcome} (h : Executes d n e o)
    (quiet : d.machine.FaultFree) (cause : StreamError) : o ≠ .failed cause := by
  induction h with
  | finished ended => simp
  | stuck live step ne => exact (faultFree_of_step live step quiet).2 cause
  | head live step _ ih => exact ih (faultFree_of_step live step quiet).1

end Debugger

end FencedTape
