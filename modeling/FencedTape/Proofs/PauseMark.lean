import FencedTape.Proofs.Breakpoints
import FencedTape.Shell.Session

/-! # What the pause mark means

Three kinds of event matter to a debugger: an instruction is completed, a jump succeeds, or a run
reports a breakpoint.  `History d events e` says that requests lead from `d` to `e` with these
events on the way.  A request need not have come to an end there, so the states in the middle of a
run are among those reached, and streams may fail as they like.

The pause mark is set exactly if the latest event is a report, and then it is the address reported
and the debugger is still there (`Sound`).  So a run stops at once exactly if there is a breakpoint
where it stands and its arrival there has not been reported. -/

set_option autoImplicit false

namespace FencedTape

/-! ## Jump targets -/

namespace Program

theorem le_size_push {table : Array Nat} {target : Nat}
    (le : ∀ t ∈ table, t ≤ table.size + 1) (new : target ≤ table.size + 1) :
    ∀ t ∈ table.push target, t ≤ (table.push target).size := by
  intro t mem
  rw [Array.size_push]
  rcases Array.mem_push.mp mem with old | rfl
  · exact le t old
  · exact new

/-- No jump leads past the end of the program, since open loops are behind the code passed. -/
theorem le_of_extendTable {code : List Instr} {waiting : List Nat} {table jumps : Array Nat}
    (h : extendTable code waiting table = .ok jumps)
    (behind : ∀ address ∈ waiting, address < table.size)
    (le : ∀ target ∈ table, target ≤ table.size) : ∀ target ∈ jumps, target ≤ jumps.size := by
  fun_induction extendTable code waiting table with
  | case1 table =>
      cases h
      exact le
  | case2 | case5 => cases h
  | case3 action code waiting table ih =>
      refine ih h ?_ (le_size_push (fun t mem => Nat.le_succ_of_le (le t mem)) (by omega))
      intro address mem
      rw [Array.size_push]
      exact Nat.lt_succ_of_lt (behind address mem)
  | case4 code waiting table ih =>
      refine ih h ?_ (le_size_push (fun t mem => Nat.le_succ_of_le (le t mem)) (by omega))
      intro address mem
      rw [Array.size_push]
      rcases List.mem_cons.mp mem with rfl | mem
      · exact Nat.lt_succ_self _
      · exact Nat.lt_succ_of_lt (behind address mem)
  | case6 code address waiting table ih =>
      have less := behind address List.mem_cons_self
      refine ih h ?_ (le_size_push ?_ ?_)
      · intro other mem
        rw [Array.size_push, Array.size_setIfInBounds]
        exact Nat.lt_succ_of_lt (behind other (List.mem_cons_of_mem address mem))
      · intro t mem
        rw [Array.size_setIfInBounds]
        rcases Array.mem_or_eq_of_mem_setIfInBounds mem with old | rfl
        · exact Nat.le_succ_of_le (le t old)
        · exact Nat.le_refl _
      · rw [Array.size_setIfInBounds]
        omega

theorem exists_jump {p : Program} {address : Nat} {instr : Instr}
    (fetched : p.get? address = some instr) :
    ∃ target ≤ p.size, p.jumps[address]? = some target ∧ p.jumpTarget address = target := by
  obtain ⟨inside, -⟩ := Array.getElem?_eq_some_iff.mp fetched
  have bound : address < p.jumps.size := by
    rw [p.size_jumps]
    exact inside
  have found := Array.getElem?_eq_getElem bound
  refine ⟨p.jumps[address], ?_, found, ?_⟩
  · rw [← p.size_jumps]
    exact le_of_extendTable p.paired (by simp) (by simp) _ (Array.getElem_mem bound)
  · rw [jumpTarget, Array.getD_eq_getD_getElem?, found, Option.getD_some]

end Program

theorem Session.answer_stopped {p : Program} {address : Nat} {instr : Instr}
    (fetched : p.get? address = some instr) :
    Session.answer p .run (.stopped address) =
      "Hit breakpoint at " ++ toString address ++ (" (" ++ instr.describe ++ ")") ++ "\n" := by
  change Session.breakpointReport p address ++ "\n" = _
  unfold Session.breakpointReport
  simp only [fetched]

/-- What happens to a debugger, as far as its pause mark is concerned. -/
inductive Event where
  /-- An instruction has been carried out. -/
  | completed
  /-- Control has been moved to an address. -/
  | jumped
  /-- A run has stopped at a breakpoint. -/
  | reported (address : Nat)
  deriving DecidableEq, Repr

def Progress.events : Progress → List Event
  | .running => [.completed]
  | .stopped address => [.reported address]
  | .finished | .failed _ | .fault _ => []

namespace Debugger

def runEvents : (limit : Nat) → Debugger → List Event
  | 0, _ => []
  | limit + 1, d =>
      match d.advance with
      | (e, .running) => .completed :: runEvents limit e
      | (_, progress) => progress.events

def events (limit : Nat) (d : Debugger) : Request → List Event
  | .run => d.runEvents limit
  | .step => if d.isDone = false ∧ d.step.2 = .done then [.completed] else []
  | .jump address => if (d.jump? address).isSome then [.jumped] else []
  | .setBreakpoint _ | .deleteBreakpoint _ | .peek _ | .poke _ _ | .select _ | .setPointer _ => []

inductive History (d : Debugger) : List Event → Debugger → Prop
  | start : History d [] d
  | request {events : List Event} {e f : Debugger} {reply : Reply} (limit : Nat)
      (request : Request) (before : History d events e)
      (handled : e.handle limit request = (f, reply)) :
      History d (events ++ e.events limit request) f

/-- What holds of a debugger for the program `p` after these events. -/
structure Sound (p : Program) (events : List Event) (d : Debugger) : Prop where
  program : d.program = p
  ip : d.ip ≤ p.size
  breakpoints : ∀ address, d.breakpoints.contains address = true → address < p.size
  marked : ∀ address, d.pausedAt = some address ↔ events.getLast? = some (.reported address)
  there : ∀ address, d.pausedAt = some address → address = d.ip ∧ d.ip < p.size
  steps : d.steps = events.count .completed

theorem sound_fresh (p : Program) (m : Machine) : Sound p [] (fresh p m) where
  program := rfl
  ip := Nat.zero_le _
  breakpoints := by simp [fresh]
  marked := by simp [fresh]
  there := by simp [fresh]
  steps := rfl

theorem Sound.withMachine {p : Program} {events : List Event} {d : Debugger}
    (sound : Sound p events d) (machine : Machine) : Sound p events { d with machine } :=
  ⟨sound.program, sound.ip, sound.breakpoints, sound.marked, sound.there, sound.steps⟩

theorem Sound.withBreakpoints {p : Program} {events : List Event} {d : Debugger}
    (sound : Sound p events d) {breakpoints : Std.ExtTreeSet Nat}
    (inside : ∀ address, breakpoints.contains address = true → address < p.size) :
    Sound p events { d with breakpoints } :=
  ⟨sound.program, sound.ip, inside, sound.marked, sound.there, sound.steps⟩

theorem Sound.jumped {p : Program} {events : List Event} {d : Debugger}
    (sound : Sound p events d) {address : Nat} (inside : address < p.size) :
    Sound p (events ++ [.jumped]) { d with ip := address, pausedAt := none } where
  program := sound.program
  ip := Nat.le_of_lt inside
  breakpoints := sound.breakpoints
  marked := by simp
  there := by simp
  steps := by simp [sound.steps]

theorem ip_le_of_branch {d e : Debugger} {o : Outcome} {ifZero ifNonzero : Nat}
    (h : d.branch ifZero ifNonzero = (e, o)) (here : d.ip ≤ d.program.size)
    (zero : ifZero ≤ d.program.size) (nonzero : ifNonzero ≤ d.program.size) :
    e.ip ≤ d.program.size := by
  rw [branch] at h
  split at h
  · cases h
    exact here
  · cases h
    rw [arrive]
    split
    · exact zero
    · exact nonzero

theorem ip_le_of_step {d e : Debugger} {o : Outcome} (live : d.isDone = false)
    (h : d.step = (e, o)) : e.ip ≤ d.program.size := by
  have inside := isDone_eq_false_iff.mp live
  obtain ⟨instr, fetched⟩ := exists_get?_of_live live
  obtain ⟨target, le, -, jump⟩ := Program.exists_jump fetched
  cases instr with
  | act action =>
      rcases performed : d.machine.perform action with ⟨machine, o'⟩
      by_cases done : o' = .done
      · subst done
        rw [step_of_act fetched performed] at h
        cases h
        exact inside
      · rw [step_of_act_stuck fetched performed done] at h
        cases h
        exact Nat.le_of_lt inside
  | loopOpen =>
      rw [step_of_loopOpen fetched, jump] at h
      exact ip_le_of_branch h (Nat.le_of_lt inside) le inside
  | loopClose =>
      rw [step_of_loopClose fetched, jump] at h
      exact ip_le_of_branch h (Nat.le_of_lt inside) inside le

theorem Sound.step {p : Program} {events : List Event} {d e : Debugger} {o : Outcome}
    (sound : Sound p events d) (live : d.isDone = false) (h : d.step = (e, o)) :
    Sound p (events ++ if o = .done then [.completed] else []) e := by
  by_cases done : o = .done
  · subst done
    have le := ip_le_of_step live h
    obtain ⟨machine, address, rfl, -⟩ := exists_of_carried live h
    rw [if_pos rfl]
    exact {
      program := sound.program
      ip := sound.program ▸ le
      breakpoints := sound.breakpoints
      marked := by simp [arrive]
      there := by simp [arrive]
      steps := by simp [arrive, sound.steps] }
  · obtain ⟨machine, rfl, -⟩ := exists_of_stuck live h done
    rw [if_neg done, List.append_nil]
    exact sound.withMachine machine

theorem Sound.advance {p : Program} {events : List Event} {d e : Debugger} {progress : Progress}
    (sound : Sound p events d) (h : d.advance = (e, progress)) :
    Sound p (events ++ progress.events) e := by
  cases live : d.isDone with
  | true =>
      rw [advance_of_isDone live] at h
      cases h
      simpa [Progress.events] using sound
  | false =>
      cases here : d.atBreakpoint with
      | true =>
          rw [advance_of_atBreakpoint live here] at h
          cases h
          have inside : d.ip < p.size := sound.program ▸ isDone_eq_false_iff.mp live
          exact {
            program := sound.program
            ip := sound.ip
            breakpoints := sound.breakpoints
            marked := by simp [Progress.events]
            there := by simp [inside]
            steps := by simp [Progress.events, sound.steps] }
      | false =>
          rcases stepped : d.step with ⟨f, o⟩
          have next := sound.step live stepped
          by_cases done : o = .done
          · subst done
            rw [advance_of_carried live here stepped] at h
            cases h
            exact next
          · rw [advance_of_stuck live here stepped done] at h
            cases h
            rw [if_neg done] at next
            cases o with
            | done => exact absurd rfl done
            | failed cause => exact next
            | fault position => exact next

theorem Sound.run {p : Program} (limit : Nat) {events : List Event} {d e : Debugger}
    {progress : Progress} (sound : Sound p events d) (h : d.run limit = (e, progress)) :
    Sound p (events ++ d.runEvents limit) e := by
  induction limit generalizing d events with
  | zero =>
      cases h
      simpa [runEvents] using sound
  | succ limit ih =>
      rcases turn : d.advance with ⟨f, progress'⟩
      have next := sound.advance turn
      by_cases running : progress' = .running
      · subst running
        rw [run_succ_of_running turn] at h
        have rest := ih next h
        rw [runEvents, turn]
        simpa [Progress.events] using rest
      · rw [run_succ_of_stop (by rw [turn]; exact running), turn] at h
        cases h
        have only : d.runEvents (limit + 1) = progress.events := by
          rw [runEvents, turn]
          cases progress with
          | running => exact absurd rfl running
          | finished => rfl
          | stopped address => rfl
          | failed cause => rfl
          | fault position => rfl
        rw [only]
        exact next

theorem Sound.handle {p : Program} {limit : Nat} {events : List Event} {d e : Debugger}
    {request : Request} {reply : Reply} (sound : Sound p events d)
    (h : d.handle limit request = (e, reply)) :
    Sound p (events ++ d.events limit request) e := by
  cases request with
  | run =>
      rcases ran : d.run limit with ⟨f, progress⟩
      simp only [Debugger.handle, ran] at h
      cases h
      exact sound.run limit ran
  | step =>
      rcases stepped : d.step with ⟨f, o⟩
      simp only [Debugger.handle, stepped] at h
      cases h
      cases live : d.isDone with
      | true =>
          rw [step_of_isDone live] at stepped
          cases stepped
          simpa [Debugger.events, live] using sound
      | false =>
          have next := sound.step live stepped
          simpa [Debugger.events, live, stepped] using next
  | setBreakpoint address =>
      rw [Debugger.events, List.append_nil]
      by_cases inside : address < d.program.size
      · simp only [Debugger.handle, setBreakpoint?_of_lt inside] at h
        cases h
        refine sound.withBreakpoints ?_
        intro other set
        simp only [Std.ExtTreeSet.contains_insert, Bool.or_eq_true, beq_iff_eq,
          Std.compare_eq_iff_eq] at set
        rcases set with rfl | set
        · exact sound.program ▸ inside
        · exact sound.breakpoints other set
      · simp only [Debugger.handle, setBreakpoint?, if_neg inside] at h
        cases h
        exact sound
  | deleteBreakpoint address =>
      rw [Debugger.events, List.append_nil]
      cases h
      refine sound.withBreakpoints ?_
      intro other set
      simp only [Std.ExtTreeSet.contains_erase, Bool.and_eq_true] at set
      exact sound.breakpoints other set.2
  | peek index =>
      rw [Debugger.events, List.append_nil]
      rw [Debugger.handle] at h
      split at h
      · cases h
        exact sound
      · cases h
        exact sound
  | poke index value =>
      rw [Debugger.events, List.append_nil]
      rw [Debugger.handle] at h
      split at h
      · next f old poked =>
          cases h
          obtain ⟨seen, -, same⟩ := Option.map_eq_some_iff.mp poked
          cases same
          exact sound.withMachine _
      · cases h
        exact sound
  | jump address =>
      by_cases inside : address < d.program.size
      · have jumped : d.jump? address = some { d with ip := address, pausedAt := none } :=
          if_pos inside
        simp only [Debugger.handle, jumped] at h
        cases h
        simp only [Debugger.events, jumped, Option.isSome_some, if_true]
        exact sound.jumped (sound.program ▸ inside)
      · have refused : d.jump? address = none := if_neg inside
        simp only [Debugger.handle, refused] at h
        cases h
        simpa [Debugger.events, refused] using sound
  | select index =>
      rw [Debugger.events, List.append_nil]
      rw [Debugger.handle] at h
      split at h
      · next f selected =>
          cases h
          rw [select?] at selected
          split at selected
          · cases selected
            exact sound.withMachine _
          · cases selected
      · cases h
        exact sound
  | setPointer index =>
      rw [Debugger.events, List.append_nil]
      cases h
      exact sound.withMachine _

theorem History.sound {p : Program} {m : Machine} {events : List Event} {d : Debugger}
    (h : History (fresh p m) events d) : Sound p events d := by
  induction h with
  | start => exact sound_fresh p m
  | request limit request _ handled ih => exact ih.handle handled

/-! ## Reports -/

theorem atBreakpoint_iff {p : Program} {events : List Event} {d : Debugger}
    (sound : Sound p events d) :
    d.atBreakpoint = true ↔
      d.breakpoints.contains d.ip = true ∧
        ∀ address, events.getLast? ≠ some (.reported address) := by
  simp only [atBreakpoint, Bool.and_eq_true, decide_eq_true_eq]
  constructor
  · rintro ⟨⟨-, unmarked⟩, set⟩
    refine ⟨set, ?_⟩
    intro address last
    have marked := (sound.marked address).mpr last
    rw [(sound.there address marked).1] at marked
    exact unmarked marked
  · rintro ⟨set, unreported⟩
    refine ⟨⟨sound.program ▸ sound.breakpoints _ set, ?_⟩, set⟩
    intro marked
    exact unreported d.ip ((sound.marked d.ip).mp marked)

theorem atBreakpoint_of_stopped {d e : Debugger} {address : Nat}
    (h : d.advance = (e, .stopped address)) : d.isDone = false ∧ d.atBreakpoint = true := by
  cases live : d.isDone with
  | true =>
      rw [advance_of_isDone live] at h
      cases h
  | false =>
      refine ⟨rfl, ?_⟩
      cases here : d.atBreakpoint with
      | true => rfl
      | false =>
          rcases stepped : d.step with ⟨f, o⟩
          by_cases done : o = .done
          · subst done
            rw [advance_of_carried live here stepped] at h
            cases h
          · rw [advance_of_stuck live here stepped done] at h
            exact absurd (Prod.mk.inj h).2 (o.ending_ne_stopped address)

/-- A run that stops ends with its report, and completes an instruction before that unless it
stops in its first turn. -/
theorem runEvents_of_stopped (limit : Nat) {d e : Debugger} {address : Nat}
    (run : d.run limit = (e, .stopped address)) :
    ∃ before, d.runEvents limit = before ++ [.reported address] ∧
      (before.count .completed = 0 → d.advance = (e, .stopped address)) := by
  induction limit generalizing d with
  | zero => cases run
  | succ limit ih =>
      rcases turn : d.advance with ⟨f, progress⟩
      by_cases running : progress = .running
      · subst running
        rw [run_succ_of_running turn] at run
        obtain ⟨before, rest, -⟩ := ih run
        refine ⟨.completed :: before, ?_, ?_⟩
        · rw [runEvents, turn]
          simp [rest]
        · simp
      · rw [run_succ_of_stop (by rw [turn]; exact running), turn] at run
        cases run
        refine ⟨[], ?_, fun _ => rfl⟩
        rw [runEvents, turn]
        rfl

theorem returns_at_once_iff {p : Program} {events : List Event} {d : Debugger}
    (sound : Sound p events d) :
    (∃ address e, Returns d e (.stopped address) ∧ e.steps = d.steps) ↔
      d.breakpoints.contains d.ip = true ∧
        ∀ address, events.getLast? ≠ some (.reported address) := by
  rw [← atBreakpoint_iff sound]
  constructor
  · rintro ⟨address, e, ⟨-, limit, run⟩, idle⟩
    obtain ⟨before, eq, first⟩ := runEvents_of_stopped limit run
    have total := (sound.run limit run).steps
    rw [idle, sound.steps, eq] at total
    have none : before.count .completed = 0 := by simpa using total
    exact (atBreakpoint_of_stopped (first none)).2
  · intro here
    have inside : d.ip < d.program.size := by
      simp only [atBreakpoint, Bool.and_eq_true, decide_eq_true_eq] at here
      exact here.1.1
    have turn := advance_of_atBreakpoint (isDone_eq_false_iff.mpr inside) here
    exact ⟨d.ip, _, returns_of_advance turn (by simp), rfl⟩

theorem exists_get?_of_stopped {p : Program} {events : List Event} {d e : Debugger}
    {address : Nat} (sound : Sound p events d) (returned : Returns d e (.stopped address)) :
    e.program = p ∧ ∃ instr, p.get? address = some instr := by
  obtain ⟨-, limit, run⟩ := returned
  obtain ⟨before, eq, -⟩ := runEvents_of_stopped limit run
  have after := sound.run limit run
  rw [eq, ← List.append_assoc] at after
  obtain ⟨rfl, inside⟩ := after.there address ((after.marked address).mpr List.getLast?_concat)
  exact ⟨after.program, _, Array.getElem?_eq_getElem inside⟩

/-- After any requests to a fresh debugger the next address, the breakpoints and the lookup of a
jump are in range.  The pause mark is set exactly if the latest event is a report, to the address
reported, where the debugger still stands.  So a run stops before it has completed an instruction
exactly if there is a breakpoint at the next address and the arrival there has not been reported.
Every stop is at an instruction, which the shell shows. -/
theorem pause_mark_iff_reported (p : Program) (m : Machine) (events : List Event) (d : Debugger)
    (h : History (fresh p m) events d) :
    (d.program = p ∧ d.steps = events.count .completed ∧ d.ip ≤ p.size ∧
      (∀ address, d.breakpoints.contains address = true → address < p.size) ∧
      ∀ instr, p.get? d.ip = some instr →
        ∃ target ≤ p.size, p.jumps[d.ip]? = some target ∧ p.jumpTarget d.ip = target) ∧
    (∀ address, d.pausedAt = some address ↔ events.getLast? = some (.reported address)) ∧
    (∀ address, d.pausedAt = some address → address = d.ip ∧ d.ip < p.size) ∧
    ((∃ address e, Returns d e (.stopped address) ∧ e.steps = d.steps) ↔
      d.breakpoints.contains d.ip = true ∧
        ∀ address, events.getLast? ≠ some (.reported address)) ∧
    ∀ address e, Returns d e (.stopped address) →
      ∃ instr, p.get? address = some instr ∧
        Session.answer e.program .run (.stopped address) =
          "Hit breakpoint at " ++ toString address ++ (" (" ++ instr.describe ++ ")") ++ "\n" := by
  have sound := h.sound
  refine ⟨⟨sound.program, sound.steps, sound.ip, sound.breakpoints,
    fun _ fetched => Program.exists_jump fetched⟩, sound.marked, sound.there,
    returns_at_once_iff sound, ?_⟩
  intro address e returned
  obtain ⟨rfl, instr, fetched⟩ := exists_get?_of_stopped sound returned
  exact ⟨instr, fetched, Session.answer_stopped fetched⟩

/-- A jump to the breakpoint at which a debugger is paused is a new arrival there. -/
theorem reported_again_countdown :
    ∃ d, History (fresh countdown idle) [.completed, .completed, .reported 2, .jumped] d ∧
      d.pausedAt = none ∧ ∃ address e, Returns d e (.stopped address) ∧ e.steps = d.steps := by
  have history : History (fresh countdown idle) [.completed, .completed, .reported 2, .jumped]
      ((((fresh countdown idle).handle 0 (.setBreakpoint 2)).1.handle 3 .run).1.handle 0
        (.jump 2)).1 :=
    .request 0 (.jump 2) (.request 3 .run (.request 0 (.setBreakpoint 2) .start rfl) rfl) rfl
  obtain ⟨-, -, -, again, -⟩ := pause_mark_iff_reported countdown idle _ _ history
  exact ⟨_, history, rfl, again.mpr ⟨by decide, by simp⟩⟩

end Debugger

end FencedTape
