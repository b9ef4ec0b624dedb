import FencedTape.Proofs.Block
import FencedTape.Proofs.Execution

/-! # The meaning of structured programs

`Block.BigStep b m n m' o` gives the meaning of a block without addresses and jumps: from the
machine `m` the block carries out `n` instructions and leaves `m'`, either because it is through
(`o` is `done`) or because an action or a test came to the outcome `o`.  A loop is a `while`: the
current cell is read before every turn of the body, and each reading counts as an instruction.

The program that a block is flattened to does the same.  One direction is an induction over the
meaning (`BigStep.leads`); since a program has only one execution, what is left is that a block has
a meaning whenever its program comes to an end (`exists_bigStep`). -/

set_option autoImplicit false

namespace FencedTape

namespace Block

inductive BigStep : Block → Machine → Nat → Machine → Outcome → Prop
  | nil (m : Machine) : BigStep .nil m 0 m .done
  | act {action : Action} {rest : Block} {m m₁ m' : Machine} {n : Nat} {o : Outcome}
      (performed : m.perform action = (m₁, .done)) (after : BigStep rest m₁ n m' o) :
      BigStep (.act action rest) m (n + 1) m' o
  | actStuck {action : Action} {rest : Block} {m m' : Machine} {o : Outcome}
      (performed : m.perform action = (m', o)) (ne : o ≠ .done) :
      BigStep (.act action rest) m 0 m' o
  | loopExit {body rest : Block} {m m' : Machine} {n : Nat} {o : Outcome}
      (zero : m.tape.load? m.dp = some 0) (after : BigStep rest m n m' o) :
      BigStep (.loop body rest) m (n + 1) m' o
  | loopTurn {body rest : Block} {m m₁ m' : Machine} {value : UInt8} {k n : Nat} {o : Outcome}
      (loaded : m.tape.load? m.dp = some value) (nonzero : value ≠ 0)
      (turn : BigStep body m k m₁ .done) (again : BigStep (.loop body rest) m₁ n m' o) :
      BigStep (.loop body rest) m (k + n + 1) m' o
  | loopStuck {body rest : Block} {m m' : Machine} {value : UInt8} {n : Nat} {o : Outcome}
      (loaded : m.tape.load? m.dp = some value) (nonzero : value ≠ 0)
      (turn : BigStep body m n m' o) (ne : o ≠ .done) :
      BigStep (.loop body rest) m (n + 1) m' o
  | testFault {body rest : Block} {m : Machine} (none : m.tape.load? m.dp = none) :
      BigStep (.loop body rest) m 0 m (.fault m.dp)

/-- Where control can be when a block that starts at `base` is due.  The two ends of a loop make
the same test, so a loop is due at both of them. -/
def Entry : Block → (base address : Nat) → Prop
  | .loop body _, base, address => address = base ∨ address = base + body.size + 1
  | _, base, address => address = base

theorem entry_self (b : Block) (base : Nat) : Entry b base base := by
  cases b with
  | nil => rfl
  | act action rest => rfl
  | loop body rest => exact Or.inl rfl

/-- From `d`, `n` instructions lead to the address `target` and the machine `m'`, or on the way
there to another outcome than `done`. -/
inductive Leads (d : Debugger) (n target : Nat) (m' : Machine) : Outcome → Prop
  | through (e : Debugger) (carried : d.Carries n e) (ip : e.ip = target)
      (machine : e.machine = m') : Leads d n target m' .done
  | stuck (e : Debugger) (o : Outcome) (ne : o ≠ .done) (executed : d.Executes n e o)
      (machine : e.machine = m') : Leads d n target m' o

theorem Leads.after {d e : Debugger} {k n target : Nat} {m' : Machine} {o : Outcome}
    (first : d.Carries k e) (rest : Leads e n target m' o) : Leads d (k + n) target m' o := by
  cases rest with
  | through f carried ip machine => exact .through f (first.trans carried) ip machine
  | stuck f _ ne executed machine => exact .stuck f o ne (first.executes executed) machine

/-! ## From the meaning to the execution -/

theorem carries_of_act {d : Debugger} {action : Action} {rest : Block} {base : Nat}
    {machine : Machine} (placed : Placed d.program (.act action rest) base)
    (entry : Entry (.act action rest) base d.ip)
    (performed : d.machine.perform action = (machine, .done)) :
    d.Carries 1 ({ d with machine }.arrive (base + 1)) := by
  have ip : d.ip = base := entry
  subst ip
  exact .head (Debugger.isDone_of_get? placed.1) (Debugger.step_of_act placed.1 performed) (.refl _)

theorem step_of_loop {d : Debugger} {body rest : Block} {base : Nat}
    (placed : Placed d.program (.loop body rest) base) (entry : Entry (.loop body rest) base d.ip) :
    d.isDone = false ∧ d.step = d.branch (base + body.size + 2) (base + 1) := by
  obtain ⟨⟨openFetched, openTarget⟩, ⟨closeFetched, closeTarget⟩, -, -⟩ := placed
  rcases entry with atOpen | atClose
  · rw [← atOpen] at openFetched openTarget
    refine ⟨Debugger.isDone_of_get? openFetched, ?_⟩
    rw [Debugger.step_of_loopOpen openFetched, openTarget, atOpen]
  · rw [← atClose] at closeFetched closeTarget
    refine ⟨Debugger.isDone_of_get? closeFetched, ?_⟩
    rw [Debugger.step_of_loopClose closeFetched, closeTarget, atClose]

theorem carries_of_zero {d : Debugger} {body rest : Block} {base : Nat}
    (placed : Placed d.program (.loop body rest) base) (entry : Entry (.loop body rest) base d.ip)
    (zero : d.machine.tape.load? d.machine.dp = some 0) :
    d.Carries 1 (d.arrive (base + body.size + 2)) := by
  obtain ⟨live, step⟩ := step_of_loop placed entry
  rw [Debugger.branch_of_some zero, if_pos rfl] at step
  exact .head live step (.refl _)

theorem carries_of_nonzero {d : Debugger} {body rest : Block} {base : Nat} {value : UInt8}
    (placed : Placed d.program (.loop body rest) base) (entry : Entry (.loop body rest) base d.ip)
    (loaded : d.machine.tape.load? d.machine.dp = some value) (nonzero : value ≠ 0) :
    d.Carries 1 (d.arrive (base + 1)) := by
  obtain ⟨live, step⟩ := step_of_loop placed entry
  rw [Debugger.branch_of_some loaded, if_neg nonzero] at step
  exact .head live step (.refl _)

theorem due_of_turn {d e : Debugger} {body rest : Block} {base n : Nat}
    (placed : Placed d.program (.loop body rest) base) (turn : d.Carries n e)
    (ip : e.ip = base + 1 + body.size) :
    Placed e.program (.loop body rest) base ∧ Entry (.loop body rest) base e.ip := by
  have kept : e.program = d.program := turn.program
  refine ⟨kept ▸ placed, ?_⟩
  right
  rw [ip]
  omega

theorem BigStep.leads {b : Block} {m m' : Machine} {n : Nat} {o : Outcome}
    (h : BigStep b m n m' o) (d : Debugger) (base : Nat) (placed : Placed d.program b base)
    (entry : Entry b base d.ip) (machine : d.machine = m) :
    Leads d n (base + b.size) m' o := by
  induction h generalizing d base with
  | nil m => exact .through d (.refl d) entry machine
  | @act action rest m m₁ m' n o performed after ih =>
      subst machine
      have carried := carries_of_act placed entry performed
      have remainder := ih ({ d with machine := m₁ }.arrive (base + 1)) (base + 1) placed.2
        (entry_self _ _) rfl
      have leads := remainder.after carried
      rwa [Nat.add_comm 1 n, Nat.add_right_comm] at leads
  | @actStuck action rest m m' o performed ne =>
      subst machine
      have ip : d.ip = base := entry
      have fetched : d.program.get? d.ip = some (.act action) := ip ▸ placed.1
      exact .stuck _ o ne (.stuck (Debugger.isDone_of_get? fetched)
        (Debugger.step_of_act_stuck fetched performed ne) ne) rfl
  | @loopExit body rest m m' n o zero after ih =>
      subst machine
      have carried := carries_of_zero placed entry zero
      have remainder := ih (d.arrive (base + body.size + 2)) (base + body.size + 2)
        placed.2.2.2 (entry_self _ _) rfl
      have leads := remainder.after carried
      have target : base + body.size + 2 + rest.size = base + (loop body rest).size := by
        simp only [size]
        omega
      rwa [Nat.add_comm 1 n, target] at leads
  | @loopTurn body rest m m₁ m' value k n o loaded nonzero turn again ihTurn ihAgain =>
      subst machine
      have carried := carries_of_nonzero placed entry loaded nonzero
      have inner := ihTurn (d.arrive (base + 1)) (base + 1) placed.2.2.1 (entry_self _ _) rfl
      cases inner with
      | stuck _ _ ne _ _ => exact absurd rfl ne
      | through e through ip machine =>
          obtain ⟨placed', closing⟩ := due_of_turn placed (carried.trans through) ip
          have remainder := ihAgain e base placed' closing machine
          have leads := remainder.after (carried.trans through)
          have count : 1 + k + n = k + n + 1 := by omega
          rwa [count] at leads
  | @loopStuck body rest m m' value n o loaded nonzero turn ne ih =>
      subst machine
      have carried := carries_of_nonzero placed entry loaded nonzero
      have inner := ih (d.arrive (base + 1)) (base + 1) placed.2.2.1 (entry_self _ _) rfl
      cases inner with
      | through _ _ _ _ => exact absurd rfl ne
      | stuck e _ _ executed machine =>
          have executed' := carried.executes executed
          rw [Nat.add_comm 1 n] at executed'
          exact .stuck e o ne executed' machine
  | @testFault body rest m none =>
      subst machine
      obtain ⟨live, step⟩ := step_of_loop placed entry
      rw [Debugger.branch_of_none none] at step
      exact .stuck d _ (by simp) (.stuck live step (by simp)) rfl

/-! ## From the execution to the meaning -/

theorem not_carries_after {d e : Debugger} {k bound : Nat} (first : d.Carries k e)
    (none : ∀ f, ¬ d.Carries bound f) : k < bound ∧ ∀ f, ¬ e.Carries (bound - k) f := by
  have less : k < bound := by
    by_contra notLess
    rcases Nat.lt_or_eq_of_le (Nat.le_of_not_lt notLess) with inside | atEnd
    · exact none _ (first.stepped.2 bound inside).1
    · exact none e (atEnd ▸ first)
  refine ⟨less, ?_⟩
  intro f rest
  have whole := first.trans rest
  rw [Nat.add_sub_of_le (Nat.le_of_lt less)] at whole
  exact none f whole

/-- A block has a meaning if the debugger cannot go on for ever at it.  The induction is on the
number of instructions that are out of reach: every turn of a loop brings it down. -/
theorem exists_bigStep (bound : Nat) (b : Block) (d : Debugger) (base : Nat)
    (placed : Placed d.program b base) (entry : Entry b base d.ip)
    (none : ∀ f, ¬ d.Carries bound f) : ∃ n m' o, BigStep b d.machine n m' o := by
  induction bound using Nat.strongRecOn generalizing b d base with
  | ind bound ih =>
      cases b with
      | nil => exact ⟨0, d.machine, .done, .nil d.machine⟩
      | act action rest =>
          rcases performed : d.machine.perform action with ⟨machine, o⟩
          by_cases done : o = .done
          · subst done
            have carried := carries_of_act placed entry performed
            obtain ⟨less, later⟩ := not_carries_after carried none
            obtain ⟨n, m', o, after⟩ := ih (bound - 1) (by omega) rest
              ({ d with machine }.arrive (base + 1)) (base + 1) placed.2 (entry_self _ _) later
            exact ⟨n + 1, m', o, .act performed after⟩
          · exact ⟨0, machine, o, .actStuck performed done⟩
      | loop body rest =>
          cases loaded : d.machine.tape.load? d.machine.dp with
          | none => exact ⟨0, d.machine, _, .testFault loaded⟩
          | some value =>
              by_cases zero : value = 0
              · subst zero
                have carried := carries_of_zero placed entry loaded
                obtain ⟨less, later⟩ := not_carries_after carried none
                obtain ⟨n, m', o, after⟩ := ih (bound - 1) (by omega) rest
                  (d.arrive (base + body.size + 2)) (base + body.size + 2) placed.2.2.2
                  (entry_self _ _) later
                exact ⟨n + 1, m', o, .loopExit loaded after⟩
              · have carried := carries_of_nonzero placed entry loaded zero
                obtain ⟨less, later⟩ := not_carries_after carried none
                obtain ⟨k, m₁, o₁, turn⟩ := ih (bound - 1) (by omega) body
                  (d.arrive (base + 1)) (base + 1) placed.2.2.1 (entry_self _ _) later
                by_cases done : o₁ = .done
                · subst done
                  -- the turn of the body ends at the end of the loop, where the loop is due again
                  have inner := turn.leads (d.arrive (base + 1)) (base + 1) placed.2.2.1
                    (entry_self _ _) rfl
                  cases inner with
                  | stuck _ _ ne _ _ => exact absurd rfl ne
                  | through e through ip machine =>
                      obtain ⟨placed', closing⟩ := due_of_turn placed (carried.trans through) ip
                      obtain ⟨less', later'⟩ := not_carries_after (carried.trans through) none
                      obtain ⟨n, m', o, again⟩ := ih (bound - (1 + k)) (by omega)
                        (.loop body rest) e base placed' closing later'
                      rw [machine] at again
                      exact ⟨k + n + 1, m', o, .loopTurn loaded zero turn again⟩
                · exact ⟨k + 1, m₁, o₁, .loopStuck loaded zero turn done⟩

/-! ## The two agree -/

theorem BigStep.executes {b : Block} {m m' : Machine} {n : Nat} {o : Outcome}
    (h : BigStep b m n m' o) :
    ∃ e, (Debugger.fresh b.program m).Executes n e o ∧ e.machine = m' := by
  have leads := h.leads (.fresh b.program m) 0 b.placed_program (entry_self b 0) rfl
  cases leads with
  | through e carried ip machine =>
      have ended : e.isDone = true := by
        rw [Debugger.isDone_eq_true_iff, carried.program, ip]
        exact Nat.le_of_eq (b.size_program.trans (Nat.zero_add b.size).symm)
      exact ⟨e, carried.executes (.finished ended), machine⟩
  | stuck e _ ne executed machine => exact ⟨e, executed, machine⟩

theorem bigStep_iff_executes {b : Block} {m m' : Machine} {n : Nat} {o : Outcome} :
    BigStep b m n m' o ↔
      ∃ e, (Debugger.fresh b.program m).Executes n e o ∧ e.machine = m' := by
  constructor
  · exact BigStep.executes
  · rintro ⟨e, executed, rfl⟩
    obtain ⟨n', m', o', meaning⟩ := exists_bigStep (n + 1) b (.fresh b.program m) 0
      b.placed_program (entry_self b 0) executed.not_carries
    obtain ⟨e', executed', rfl⟩ := meaning.executes
    obtain ⟨rfl, rfl, rfl⟩ := executed.unique executed'
    exact meaning

theorem run_iff_bigStep {b : Block} {m m' : Machine} {n : Nat} {o : Outcome} :
    (∃ limit d, (Debugger.fresh b.program m).run limit = (d, o.ending) ∧
      d.machine = m' ∧ d.steps = n) ↔ BigStep b m n m' o := by
  rw [bigStep_iff_executes]
  constructor
  · rintro ⟨limit, d, run, machine, steps⟩
    obtain ⟨n', executed⟩ :=
      (Debugger.returns_iff_executes rfl).mp ⟨o.ending_ne_running, limit, run⟩
    have count := executed.steps
    simp only [Debugger.fresh, Nat.zero_add] at count
    exact ⟨d, (count.symm.trans steps) ▸ executed, machine⟩
  · rintro ⟨d, executed, machine⟩
    obtain ⟨-, limit, run⟩ := executed.returns rfl
    have count := executed.steps
    simp only [Debugger.fresh, Nat.zero_add] at count
    exact ⟨limit, d, run, machine, count⟩

theorem BigStep.returns {b : Block} {m m' : Machine} {n : Nat} {o : Outcome}
    (h : BigStep b m n m' o) :
    ∃ d : Debugger, d.machine = m' ∧ d.steps = n ∧
      ∀ e progress, Debugger.Returns (.fresh b.program m) e progress ↔
        e = d ∧ progress = o.ending := by
  obtain ⟨d, executed, machine⟩ := h.executes
  have returned : Debugger.Returns (.fresh b.program m) d o.ending := executed.returns rfl
  refine ⟨d, machine, executed.steps.trans (Nat.zero_add n), ?_⟩
  intro e progress
  constructor
  · intro other
    exact other.unique returned
  · rintro ⟨rfl, rfl⟩
    exact returned

theorem BigStep.usable {b : Block} {m m' : Machine} {n : Nat} {o : Outcome}
    (h : BigStep b m n m' o) : m'.tape.usable = m.tape.usable := by
  induction h with
  | nil m => rfl
  | act performed _ ih => exact ih.trans (Machine.usable_of_perform performed)
  | actStuck performed _ => exact Machine.usable_of_perform performed
  | loopExit _ _ ih => exact ih
  | loopTurn _ _ _ _ ihTurn ihAgain => exact ihAgain.trans ihTurn
  | loopStuck _ _ _ _ ih => exact ih
  | testFault _ => rfl

theorem BigStep.outside_of_fault {b : Block} {m m' : Machine} {n : Nat} {k : Int64}
    (h : BigStep b m n m' (.fault k)) : ¬ (0 ≤ k.toInt ∧ k.toInt < m.tape.usable) := by
  generalize fault : Outcome.fault k = o at h
  induction h with
  | nil m => cases fault
  | act performed _ ih => exact Machine.usable_of_perform performed ▸ ih fault
  | actStuck performed _ =>
      subst fault
      exact Tape.index?_eq_none_iff.mp (Machine.index?_of_fault performed)
  | loopExit _ _ ih => exact ih fault
  | loopTurn _ _ turn _ _ ihAgain => exact turn.usable ▸ ihAgain fault
  | loopStuck _ _ _ _ ih => exact ih fault
  | testFault none =>
      cases fault
      exact Tape.index?_eq_none_iff.mp (Tape.index?_of_load? none)

/-- The flattened program runs to its end with what the block means: the same machine after the
same number of instructions.  It runs into a fault exactly when the block does, at the same
position, which is one that cannot be accessed. -/
theorem run_flatten_iff_bigStep (b : Block) (m : Machine) :
    ∃ p, Program.ofCode b.flatten = .ok p ∧
      (∀ n m', (∃ limit d, (Debugger.fresh p m).run limit = (d, .finished) ∧
        d.machine = m' ∧ d.steps = n) ↔ BigStep b m n m' .done) ∧
      (∀ k n m', (∃ limit d, (Debugger.fresh p m).run limit = (d, .fault k) ∧
        d.machine = m' ∧ d.steps = n) ↔ BigStep b m n m' (.fault k)) ∧
      ∀ k n m', BigStep b m n m' (.fault k) → ¬ (0 ≤ k.toInt ∧ k.toInt < m.tape.usable) := by
  refine ⟨b.program, b.ofCode_flatten, ?_, ?_, ?_⟩
  · intro n m'
    exact run_iff_bigStep (o := .done)
  · intro k n m'
    exact run_iff_bigStep (o := .fault k)
  · intro k n m' meaning
    exact meaning.outside_of_fault

end Block

end FencedTape
