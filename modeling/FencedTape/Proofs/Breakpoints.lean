import FencedTape.CommandLine.Job
import FencedTape.Proofs.Execution

/-! # Stops at breakpoints

`Driven d stops e progress` says what comes of calling `run` on `d` and again after every stop: the
stops on the way, each with its address and the debugger as it stands there, and what the last call
returns.  For an execution that is over after `n` instructions the stops are the arrivals at
addresses with a breakpoint, each of them once and in order (`Executes.driven`): the pause mark set
on arrival lets the next call go past, and it is gone with the instruction that it let through. -/

set_option autoImplicit false

namespace FencedTape

/-- The number of instructions that are reached when an execution of `n` instructions comes to this
outcome: all that were carried out, and the one that was not. -/
def Outcome.reached (n : Nat) : Outcome → Nat
  | .done => n
  | .failed _ | .fault _ => n + 1

theorem Outcome.reached_zero {o : Outcome} (ne : o ≠ .done) : o.reached 0 = 1 := by
  cases o with
  | done => exact absurd rfl ne
  | failed cause => rfl
  | fault position => rfl

theorem Outcome.reached_succ (o : Outcome) (n : Nat) : o.reached (n + 1) = o.reached n + 1 := by
  cases o <;> rfl

namespace Debugger

inductive Driven : Debugger → List (Nat × Debugger) → Debugger → Progress → Prop
  | last {d e : Debugger} {progress : Progress} (returned : Returns d e progress)
      (final : ∀ address, progress ≠ .stopped address) : Driven d [] e progress
  | again {d e f : Debugger} {address : Nat} {stops : List (Nat × Debugger)}
      {progress : Progress} (returned : Returns d e (.stopped address))
      (rest : Driven e stops f progress) : Driven d ((address, e) :: stops) f progress

def addressAfter (d : Debugger) (count : Nat) : Nat := (d.stepped count).ip

/-- A stop on arriving where `d` stands. -/
def stop (d : Debugger) (breakpoints : Std.ExtTreeSet Nat) : Nat × Debugger :=
  (d.ip, d.armed breakpoints (some d.ip))

def stops (d : Debugger) (breakpoints : Std.ExtTreeSet Nat) (count : Nat) :
    List (Nat × Debugger) :=
  ((List.range count).filter fun i => breakpoints.contains (d.addressAfter i)).map fun i =>
    (d.stepped i).stop breakpoints

theorem Driven.of_running {d e f : Debugger} {stops : List (Nat × Debugger)}
    {progress : Progress} (turn : d.advance = (e, .running)) (rest : Driven e stops f progress) :
    Driven d stops f progress := by
  cases rest with
  | last returned final => exact .last (returned.of_running turn) final
  | again returned more => exact .again (returned.of_running turn) more

theorem Driven.unique {d e f : Debugger} {left right : List (Nat × Debugger)}
    {progress progress' : Progress} (first : Driven d left e progress)
    (second : Driven d right f progress') : left = right ∧ e = f ∧ progress = progress' := by
  induction first generalizing right with
  | last returned final =>
      cases second with
      | last returned' _ => exact ⟨rfl, returned.unique returned'⟩
      | again returned' _ => exact absurd (returned.unique returned').2 (final _)
  | again returned _ ih =>
      cases second with
      | last returned' final => exact absurd (returned'.unique returned).2 (final _)
      | again returned' rest =>
          obtain ⟨rfl, same⟩ := returned.unique returned'
          cases same
          obtain ⟨rfl, ends⟩ := ih rest
          exact ⟨rfl, ends⟩

/-! ## The stops of an execution -/

theorem stepped_succ (d : Debugger) (count : Nat) :
    d.stepped (count + 1) = d.step.1.stepped count :=
  Function.iterate_succ_apply _ count d

theorem stops_zero (d : Debugger) (breakpoints : Std.ExtTreeSet Nat) :
    d.stops breakpoints 0 = [] := rfl

theorem stops_succ (d : Debugger) (breakpoints : Std.ExtTreeSet Nat) (count : Nat) :
    d.stops breakpoints (count + 1) =
      if breakpoints.contains d.ip then
        d.stop breakpoints :: d.step.1.stops breakpoints count
      else d.step.1.stops breakpoints count := by
  have here : d.addressAfter 0 = d.ip := rfl
  have shifted : ∀ i, d.addressAfter (i + 1) = d.step.1.addressAfter i := by
    intro i
    rw [addressAfter, stepped_succ, addressAfter]
  simp only [stops, List.range_succ_eq_map, List.filter_cons, here, List.filter_map]
  have tail : (fun i => breakpoints.contains (d.addressAfter i)) ∘ Nat.succ =
      fun i => breakpoints.contains (d.step.1.addressAfter i) := by
    funext i
    simp only [Function.comp_apply, Nat.succ_eq_add_one, shifted]
  split
  · simp [tail, stepped]
  · simp [tail, stepped_succ]

theorem advance_armed_of_set {d : Debugger} {breakpoints : Std.ExtTreeSet Nat}
    (live : d.isDone = false) (set : breakpoints.contains d.ip = true) :
    (d.armed breakpoints none).advance = (d.armed breakpoints (some d.ip), .stopped d.ip) := by
  have inside := isDone_eq_false_iff.mp live
  refine advance_of_atBreakpoint (d := d.armed breakpoints none) live ?_
  simp [atBreakpoint, armed, inside, set]

theorem atBreakpoint_armed_of_unset {d : Debugger} {breakpoints : Std.ExtTreeSet Nat}
    (unset : breakpoints.contains d.ip = false) (mark : Option Nat) :
    (d.armed breakpoints mark).atBreakpoint = false := by
  simp [atBreakpoint, armed, unset]

theorem atBreakpoint_armed_of_marked (d : Debugger) (breakpoints : Std.ExtTreeSet Nat) :
    (d.armed breakpoints (some d.ip)).atBreakpoint = false := by
  simp [atBreakpoint, armed]

/-- Calling `run` again after every stop goes through the whole execution, and stops on each
arrival at a breakpoint. -/
theorem Executes.driven {n : Nat} {d e : Debugger} {o : Outcome} (h : Executes d n e o)
    (breakpoints : Std.ExtTreeSet Nat) :
    ∃ mark, Driven (d.armed breakpoints none) (d.stops breakpoints (o.reached n))
      (e.armed breakpoints mark) o.ending ∧ (o = .done → mark = none) := by
  induction h with
  | @finished d ended =>
      have returned := returns_of_advance (d := d.armed breakpoints none)
        (advance_of_isDone ended) (by simp)
      exact ⟨none, .last returned (by simp [Outcome.ending]), fun _ => rfl⟩
  | @stuck d e o live step ne =>
      obtain ⟨-, -, armedStep⟩ := exists_of_stuck live step ne
      rw [Outcome.reached_zero ne, stops_succ, stops_zero]
      cases set : breakpoints.contains d.ip with
      | true =>
          have turn := advance_of_stuck (d := d.armed breakpoints (some d.ip)) live
            (atBreakpoint_armed_of_marked d breakpoints) (armedStep breakpoints (some d.ip)) ne
          refine ⟨some d.ip, ?_, fun done => absurd done ne⟩
          exact .again (returns_of_advance (advance_armed_of_set live set) (by simp))
            (.last (returns_of_advance turn o.ending_ne_running) o.ending_ne_stopped)
      | false =>
          have turn := advance_of_stuck (d := d.armed breakpoints none) live
            (atBreakpoint_armed_of_unset set none) (armedStep breakpoints none) ne
          exact ⟨none, .last (returns_of_advance turn o.ending_ne_running) o.ending_ne_stopped,
            fun _ => rfl⟩
  | @head n d e f o live step rest ih =>
      obtain ⟨mark, driven, unmarked⟩ := ih
      obtain ⟨-, -, -, armedStep⟩ := exists_of_carried live step
      refine ⟨mark, ?_, unmarked⟩
      rw [Outcome.reached_succ, stops_succ, step]
      cases set : breakpoints.contains d.ip with
      | true =>
          -- one call stops here and sets the mark, the next goes past and finds it cleared
          have turn := advance_of_carried (d := d.armed breakpoints (some d.ip)) live
            (atBreakpoint_armed_of_marked d breakpoints) (armedStep breakpoints (some d.ip))
          exact .again (returns_of_advance (advance_armed_of_set live set) (by simp))
            (driven.of_running turn)
      | false =>
          have turn := advance_of_carried (d := d.armed breakpoints none) live
            (atBreakpoint_armed_of_unset set none) (armedStep breakpoints none)
          exact driven.of_running turn

/-! ## Setting breakpoints -/

theorem setBreakpoint?_of_lt {d : Debugger} {address : Nat} (inside : address < d.program.size) :
    d.setBreakpoint? address =
      some (d.armed (d.breakpoints.insert address) d.pausedAt,
        !d.breakpoints.contains address) := by
  rw [setBreakpoint?, if_pos inside]
  rfl

theorem setBreakpoints_eq_ok (addresses : List Nat) (d : Debugger)
    (inRange : ∀ address ∈ addresses, address < d.program.size) :
    ∃ breakpoints, Job.setBreakpoints d addresses = .ok (d.armed breakpoints d.pausedAt) ∧
      ∀ address, breakpoints.contains address = true ↔
        address ∈ addresses ∨ d.breakpoints.contains address = true := by
  induction addresses generalizing d with
  | nil => exact ⟨d.breakpoints, rfl, by simp⟩
  | cons first addresses ih =>
      have accepted := setBreakpoint?_of_lt (inRange first (by simp))
      obtain ⟨breakpoints, set, contained⟩ := ih
        (d.armed (d.breakpoints.insert first) d.pausedAt)
        (fun address mem => inRange address (List.mem_cons_of_mem first mem))
      refine ⟨breakpoints, ?_, ?_⟩
      · rw [Job.setBreakpoints, accepted]
        exact set
      · intro address
        rw [contained]
        have same : (compare first address == .eq) = true ↔ address = first := by
          rw [beq_iff_eq, Std.compare_eq_iff_eq]
          exact eq_comm
        simp only [armed, Std.ExtTreeSet.contains_insert, Bool.or_eq_true, same, List.mem_cons]
        rw [or_assoc, or_left_comm]

/-- If a program ends without breakpoints, having carried out the instructions at the addresses
`a 0, …, a (n - 1)`, then with breakpoints set before the first call of `run` the calls stop for
exactly those `i` with a breakpoint at `a i`, in order and before the instruction is carried out.
The call after the last stop finds the end. -/
theorem driven_iff_stops_at_breakpoints (p : Program) (m : Machine) (e : Debugger)
    (addresses : List Nat) (ends : Returns (fresh p m) e .finished)
    (inRange : ∀ address ∈ addresses, address < p.size) :
    (e = (fresh p m).stepped e.steps ∧
      ∀ i < e.steps, ((fresh p m).stepped i).steps = i ∧
        ((fresh p m).stepped i).isDone = false ∧ ((fresh p m).stepped i).step.2 = .done) ∧
    ∃ d, Job.setBreakpoints (fresh p m) addresses = .ok d ∧
      ∀ stops final progress, Driven d stops final progress ↔
        stops = ((List.range e.steps).filter fun i =>
          (fresh p m).addressAfter i ∈ addresses).map (fun i =>
            ((fresh p m).addressAfter i, ((fresh p m).stepped i).armed d.breakpoints
              (some ((fresh p m).addressAfter i)))) ∧
        final = e.armed d.breakpoints none ∧ progress = .finished := by
  obtain ⟨n, executed⟩ := (returns_iff_executes (o := .done) rfl).mp ends
  have count : e.steps = n := executed.steps.trans (Nat.zero_add n)
  subst count
  obtain ⟨carried, ended⟩ := executed.carries
  obtain ⟨last, before⟩ := carried.stepped
  refine ⟨⟨last.symm, ?_⟩, ?_⟩
  · intro i hi
    obtain ⟨reached, live, done⟩ := before i hi
    exact ⟨reached.steps.trans (Nat.zero_add i), live, done⟩
  · obtain ⟨breakpoints, set, contained⟩ := setBreakpoints_eq_ok addresses (fresh p m) inRange
    refine ⟨(fresh p m).armed breakpoints none, set, ?_⟩
    obtain ⟨mark, driven, unmarked⟩ := executed.driven breakpoints
    cases unmarked rfl
    have same : (fresh p m).stops breakpoints e.steps =
        ((List.range e.steps).filter fun i => (fresh p m).addressAfter i ∈ addresses).map
          (fun i => ((fresh p m).addressAfter i, ((fresh p m).stepped i).armed breakpoints
            (some ((fresh p m).addressAfter i)))) := by
      rw [stops]
      congr 1
      apply List.filter_congr
      intro i _
      have none : (fresh p m).breakpoints.contains ((fresh p m).addressAfter i) = false := by
        simp [fresh]
      have iff := contained ((fresh p m).addressAfter i)
      simp only [none, Bool.false_eq_true, or_false] at iff
      exact Bool.eq_iff_iff.mpr (iff.trans decide_eq_true_iff.symm)
    intro stops final progress
    constructor
    · intro other
      obtain ⟨rfl, rfl, rfl⟩ := other.unique driven
      exact ⟨same, rfl, rfl⟩
    · rintro ⟨rfl, rfl, rfl⟩
      exact same ▸ driven

def countdown : Program where
  code := #[.act (.set 0 2), .loopOpen, .act (.adjust 0 255), .loopClose]
  jumps := #[0, 4, 2, 2]
  paired := rfl

def idle : Machine where
  tape := .blank 4 4096 (by decide) (by decide)
  dp := 0
  atEnd := .unchanged
  source := {}
  sink := {}

theorem driven_countdown :
    ∃ e d stops final, Returns (fresh countdown idle) e .finished ∧
      Job.setBreakpoints (fresh countdown idle) [2] = .ok d ∧ Driven d stops final .finished ∧
      stops.map (fun stop => (stop.1, stop.2.steps)) = [(2, 2), (2, 4)] ∧ final.steps = 6 := by
  have ends : Returns (fresh countdown idle) ((fresh countdown idle).run 10).1 .finished :=
    ⟨by decide, 10, Prod.ext rfl (by decide)⟩
  obtain ⟨-, d, set, driven⟩ :=
    driven_iff_stops_at_breakpoints countdown idle _ [2] ends (by decide)
  refine ⟨_, d, _, _, ends, set, (driven _ _ _).mpr ⟨rfl, rfl, rfl⟩, ?_, ?_⟩
  · rw [List.map_map]
    change List.map (fun i => ((fresh countdown idle).addressAfter i,
      ((fresh countdown idle).stepped i).steps)) _ = _
    decide
  · change ((fresh countdown idle).run 10).1.steps = 6
    decide

end Debugger

end FencedTape
