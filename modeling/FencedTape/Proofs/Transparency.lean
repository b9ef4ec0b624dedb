import FencedTape.Debugger.Request
import FencedTape.Proofs.Breakpoints

/-! # Debugging does not change the program

A debugger that is only asked to run, to step, to look at cells and to set or delete breakpoints
stands at a point of the plain execution.  `Serves d calls e` lists the requests made of a debugger
with the replies they got, each of which is one: no call goes on for ever.  What every request
preserves is that the instructions carried out so far lead from the start to where the debugger
stands (`carries_of_handle`).

Going through a program from stop to stop comes to the same end as one run without breakpoints,
whether `run` is called again by hand (`Driven`) or by the job that watches it (`Watched`). -/

set_option autoImplicit false

namespace FencedTape

/-- The requests that let a program go on as it is. -/
def Request.Observes : Request → Prop
  | .run | .step | .setBreakpoint _ | .deleteBreakpoint _ | .peek _ => True
  | .poke _ _ | .jump _ | .select _ | .setPointer _ => False

namespace Debugger

inductive Serves : Debugger → List (Request × Reply) → Debugger → Prop
  | nil (d : Debugger) : Serves d [] d
  | cons {d e f : Debugger} {limit : Nat} {request : Request} {reply : Reply}
      {calls : List (Request × Reply)} (handled : d.handle limit request = (e, reply))
      (returned : reply ≠ .running) (rest : Serves e calls f) :
      Serves d ((request, reply) :: calls) f

def Watched (d e : Debugger) (progress : Progress) : Prop :=
  progress ≠ .running ∧ ∃ limit errors, Job.watch limit d "" = (e, progress, errors)

/-! ## Requests -/

theorem carries_of_run {d e : Debugger} {limit : Nat} {progress : Progress}
    (run : d.run limit = (e, progress)) (quiet : d.machine.FaultFree)
    (safe : ∀ position, progress ≠ .fault position) : ∃ n, Carries n d.bare e.bare := by
  cases runResult limit run with
  | running n carried => exact ⟨n, carried⟩
  | stopped n address carried set => exact ⟨n, carried⟩
  | complete n o executed ending =>
      cases o with
      | done => exact ⟨n, executed.carries.1⟩
      | failed cause => exact absurd rfl (executed.not_failed quiet cause)
      | fault position => exact absurd ending.symm (safe position)

theorem carries_of_step {d e : Debugger} {o : Outcome} (step : d.step = (e, o))
    (quiet : d.machine.FaultFree) (safe : ∀ position, o ≠ .fault position) :
    ∃ n, Carries n d.bare e.bare := by
  cases live : d.isDone with
  | true =>
      rw [step_of_isDone live] at step
      cases step
      exact ⟨0, .refl _⟩
  | false =>
      cases o with
      | done =>
          obtain ⟨-, -, -, bareStep⟩ := exists_of_carried live step
          exact ⟨1, .head live (bareStep ∅ none) (.refl _)⟩
      | failed cause => exact absurd rfl ((faultFree_of_step live step quiet).2 cause)
      | fault position => exact absurd rfl (safe position)

theorem carries_of_handle {d e : Debugger} {limit : Nat} {request : Request} {reply : Reply}
    (handled : d.handle limit request = (e, reply)) (observes : request.Observes)
    (quiet : d.machine.FaultFree) (safe : ∀ position, reply ≠ .fault position) :
    ∃ n, Carries n d.bare e.bare := by
  cases request with
  | run =>
      rcases run : d.run limit with ⟨f, progress⟩
      simp only [handle, run] at handled
      cases handled
      refine carries_of_run run quiet ?_
      intro position fault
      exact safe position (congrArg Reply.ofProgress fault)
  | step =>
      rcases step : d.step with ⟨f, o⟩
      simp only [handle, step] at handled
      cases handled
      refine carries_of_step step quiet ?_
      intro position fault
      exact safe position (congrArg Reply.ofOutcome fault)
  | setBreakpoint address =>
      by_cases inside : address < d.program.size
      · simp only [handle, setBreakpoint?_of_lt inside] at handled
        cases handled
        exact ⟨0, .refl _⟩
      · simp only [handle, setBreakpoint?, if_neg inside] at handled
        cases handled
        exact ⟨0, .refl _⟩
  | deleteBreakpoint address =>
      obtain ⟨rfl, rfl⟩ := Prod.mk.inj handled
      exact ⟨0, .refl _⟩
  | peek index =>
      rw [handle] at handled
      split at handled
      · cases handled
        exact ⟨0, .refl _⟩
      · cases handled
        exact ⟨0, .refl _⟩
  | poke index value => exact False.elim observes
  | jump address => exact False.elim observes
  | select index => exact False.elim observes
  | setPointer index => exact False.elim observes

theorem Serves.carries {d e : Debugger} {calls : List (Request × Reply)} (h : Serves d calls e)
    (allowed : ∀ call ∈ calls, call.1.Observes ∧ ∀ position, call.2 ≠ .fault position)
    (quiet : d.machine.FaultFree) : ∃ n, Carries n d.bare e.bare := by
  induction h with
  | nil d => exact ⟨0, .refl _⟩
  | cons handled _ _ ih =>
      obtain ⟨observes, safe⟩ := allowed _ List.mem_cons_self
      obtain ⟨n, first⟩ := carries_of_handle handled observes quiet safe
      have quiet' := first.faultFree quiet
      obtain ⟨n', rest⟩ := ih (fun call mem => allowed call (List.mem_cons_of_mem _ mem)) quiet'
      exact ⟨n + n', first.trans rest⟩

/-! ## From stop to stop -/

theorem bare_of_step {d e : Debugger} {o : Outcome} (live : d.isDone = false)
    (step : d.step = (e, o)) (bare : d.bare = d) : e.bare = e := by
  by_cases done : o = .done
  · subst done
    obtain ⟨machine, address, rfl, -⟩ := exists_of_carried live step
    rw [← bare]
    rfl
  · obtain ⟨machine, rfl, -⟩ := exists_of_stuck live step done
    rw [← bare]
    rfl

theorem Executes.bare {n : Nat} {d e : Debugger} {o : Outcome} (h : Executes d n e o)
    (bare : d.bare = d) : e.bare = e := by
  induction h with
  | finished ended => exact bare
  | stuck live step _ => exact bare_of_step live step bare
  | head live step _ ih => exact ih (bare_of_step live step bare)

theorem Driven.executes {d e : Debugger} {stops : List (Nat × Debugger)} {progress : Progress}
    (h : Driven d stops e progress) :
    ∃ n o, Executes d.bare n e.bare o ∧ o.ending = progress := by
  induction h with
  | last returned final =>
      obtain ⟨ne, limit, run⟩ := returned
      cases runResult limit run with
      | running n carried => exact absurd rfl ne
      | stopped n address carried set => exact absurd rfl (final address)
      | complete n o executed ending => exact ⟨n, o, executed, ending⟩
  | again returned _ ih =>
      obtain ⟨ne, limit, run⟩ := returned
      obtain ⟨n', o, rest, ending⟩ := ih
      cases runResult limit run with
      | stopped n address carried set => exact ⟨n + n', o, carried.executes rest, ending⟩
      | complete n o' executed ending' => exact absurd ending' (o'.ending_ne_stopped _)

/-- Whatever the breakpoints, going on from stop to stop ends as the plain run does. -/
theorem returns_iff_driven {d e : Debugger} (bare : d.bare = d)
    (breakpoints : Std.ExtTreeSet Nat) (progress : Progress) :
    Returns d e progress ↔
      ∃ stops f, Driven (d.armed breakpoints none) stops f progress ∧ f.bare = e := by
  constructor
  · intro returned
    obtain ⟨n, o, executed, rfl⟩ := returned.executes bare
    obtain ⟨mark, driven, -⟩ := executed.driven breakpoints
    exact ⟨_, e.armed breakpoints mark, driven, executed.bare bare⟩
  · rintro ⟨stops, f, driven, rfl⟩
    obtain ⟨n, o, executed, rfl⟩ := driven.executes
    have plain : Executes d n f.bare o := bare ▸ executed
    exact plain.returns (congrArg Debugger.breakpoints bare.symm)

/-! ## The job that goes from stop to stop -/

/-- What is made of a call of `run` by watching for `more` turns after it. -/
def watchOn (more : Nat) (e : Debugger) (errors : String) :
    Progress → Debugger × Progress × String
  | .stopped address => Job.watch more e (errors ++ Job.breakpointLine e address)
  | progress => (e, progress, errors)

theorem watch_of_run (limit : Nat) {d e : Debugger} {progress : Progress}
    (run : d.run limit = (e, progress)) (ne : progress ≠ .running) (errors : String)
    (more : Nat) :
    ∃ limit', Job.watch limit' d errors = watchOn more e errors progress := by
  induction limit generalizing d with
  | zero =>
      obtain ⟨-, rfl⟩ := Prod.mk.inj run
      exact absurd rfl ne
  | succ limit ih =>
      rcases turn : d.advance with ⟨f, progress'⟩
      by_cases running : progress' = .running
      · subst running
        rw [run_succ_of_running turn] at run
        obtain ⟨limit', watched⟩ := ih run
        refine ⟨limit' + 1, ?_⟩
        rw [Job.watch, turn]
        exact watched
      · rw [run_succ_of_stop (by rw [turn]; exact running), turn] at run
        obtain ⟨rfl, rfl⟩ := Prod.mk.inj run
        refine ⟨more + 1, ?_⟩
        rw [Job.watch, turn]
        cases progress' with
        | running => exact absurd rfl ne
        | finished => rfl
        | stopped address => rfl
        | failed cause => rfl
        | fault position => rfl

theorem watch_of_driven {d e : Debugger} {stops : List (Nat × Debugger)} {progress : Progress}
    (h : Driven d stops e progress) (errors : String) :
    ∃ limit errors', Job.watch limit d errors = (e, progress, errors') := by
  induction h generalizing errors with
  | @last d e progress returned final =>
      obtain ⟨ne, limit, run⟩ := returned
      obtain ⟨limit', watched⟩ := watch_of_run limit run ne errors 0
      refine ⟨limit', errors, ?_⟩
      cases progress with
      | stopped address => exact absurd rfl (final address)
      | running => exact watched
      | finished => exact watched
      | failed cause => exact watched
      | fault position => exact watched
  | @again d e f address stops progress returned _ ih =>
      obtain ⟨ne, limit, run⟩ := returned
      obtain ⟨more, errors', rest⟩ := ih (errors ++ Job.breakpointLine e address)
      obtain ⟨limit', watched⟩ := watch_of_run limit run ne errors more
      exact ⟨limit', errors', watched.trans rest⟩

theorem driven_of_watch (limit : Nat) {d e : Debugger} {progress : Progress}
    {errors errors' : String} (watched : Job.watch limit d errors = (e, progress, errors'))
    (ne : progress ≠ .running) : ∃ stops, Driven d stops e progress := by
  induction limit generalizing d errors with
  | zero =>
      cases watched
      exact absurd rfl ne
  | succ limit ih =>
      rcases turn : d.advance with ⟨f, progress'⟩
      rw [Job.watch, turn] at watched
      cases progress' with
      | running =>
          obtain ⟨stops, rest⟩ := ih watched
          exact ⟨stops, rest.of_running turn⟩
      | stopped address =>
          obtain ⟨stops, rest⟩ := ih watched
          exact ⟨(address, f) :: stops, .again (returns_of_advance turn (by simp)) rest⟩
      | finished =>
          cases watched
          exact ⟨[], .last (returns_of_advance turn (by simp)) (by simp)⟩
      | failed cause =>
          cases watched
          exact ⟨[], .last (returns_of_advance turn (by simp)) (by simp)⟩
      | fault position =>
          cases watched
          exact ⟨[], .last (returns_of_advance turn (by simp)) (by simp)⟩

theorem watched_iff_driven {d e : Debugger} {progress : Progress} :
    Watched d e progress ↔ ∃ stops, Driven d stops e progress := by
  constructor
  · rintro ⟨ne, limit, errors, watched⟩
    exact driven_of_watch limit watched ne
  · rintro ⟨stops, driven⟩
    obtain ⟨limit, errors, watched⟩ := watch_of_driven driven ""
    obtain ⟨n, o, -, rfl⟩ := driven.executes
    exact ⟨o.ending_ne_running, limit, errors, watched⟩

/-! ## Both together -/

/-- Debugging does not change what the program does.  After any requests that only observe, all of
them answered and none ending in a fault, the machine and the address are those that as many calls
of `step` on a fresh debugger lead to.  And whatever the breakpoints, going from stop to stop ends
as a run without breakpoints does: at the end of the program or in a fault, with the same machine,
at the same address and after the same number of instructions. -/
theorem debugging_is_transparent (p : Program) (m : Machine) (quiet : m.FaultFree) :
    (∀ calls d, Serves (fresh p m) calls d →
      (∀ call ∈ calls, call.1.Observes ∧ ∀ position, call.2 ≠ .fault position) →
      d.machine = ((fresh p m).stepped d.steps).machine ∧
        d.ip = ((fresh p m).stepped d.steps).ip ∧
        ∀ i < d.steps, ((fresh p m).stepped i).step.2 = .done) ∧
    ∀ breakpoints progress e,
      (Returns (fresh p m) e progress ↔
        ∃ stops d, Driven ((fresh p m).armed breakpoints none) stops d progress ∧ d.bare = e) ∧
      (Returns (fresh p m) e progress ↔
        ∃ d, Watched ((fresh p m).armed breakpoints none) d progress ∧ d.bare = e) := by
  refine ⟨?_, ?_⟩
  · intro calls d served allowed
    obtain ⟨n, carried⟩ := served.carries allowed quiet
    have count : d.steps = n := carried.steps.trans (Nat.zero_add n)
    subst count
    obtain ⟨reached, before⟩ := carried.stepped
    refine ⟨(congrArg machine reached).symm, (congrArg ip reached).symm, ?_⟩
    intro i hi
    exact (before i hi).2.2
  · intro breakpoints progress e
    have driven := returns_iff_driven (d := fresh p m) (e := e) rfl breakpoints progress
    refine ⟨driven, driven.trans ?_⟩
    constructor
    · rintro ⟨stops, d, driven, bare⟩
      exact ⟨d, watched_iff_driven.mpr ⟨stops, driven⟩, bare⟩
    · rintro ⟨d, watched, bare⟩
      obtain ⟨stops, driven⟩ := watched_iff_driven.mp watched
      exact ⟨stops, d, driven, bare⟩

theorem transparent_countdown :
    ∃ d, Serves (fresh countdown idle) [(.setBreakpoint 2, .changed true), (.run, .stopped 2),
        (.peek 0, .value 2), (.step, .done), (.deleteBreakpoint 2, .changed true)] d ∧
      d.machine = ((fresh countdown idle).stepped d.steps).machine ∧
      d.ip = ((fresh countdown idle).stepped d.steps).ip ∧ d.steps = 3 := by
  obtain ⟨d₁, set, d₂, stopped, d₃, seen, d₄, stepped, d₅, deleted, count⟩ :
      ∃ d₁, (fresh countdown idle).handle 0 (.setBreakpoint 2) = (d₁, .changed true) ∧
      ∃ d₂, d₁.handle 3 .run = (d₂, .stopped 2) ∧
      ∃ d₃, d₂.handle 0 (.peek 0) = (d₃, .value 2) ∧
      ∃ d₄, d₃.handle 0 .step = (d₄, .done) ∧
      ∃ d₅, d₄.handle 0 (.deleteBreakpoint 2) = (d₅, .changed true) ∧ d₅.steps = 3 :=
    ⟨_, rfl, _, rfl, _, rfl, _, rfl, _, rfl, rfl⟩
  have served := Serves.cons set (by simp) <| .cons stopped (by simp) <| .cons seen (by simp) <|
    .cons stepped (by simp) <| .cons deleted (by simp) (.nil d₅)
  obtain ⟨machine, ip, -⟩ := (debugging_is_transparent countdown idle (by decide)).1 _ d₅ served
    (by simp [Request.Observes])
  exact ⟨d₅, served, machine, ip, count⟩

end Debugger

end FencedTape
