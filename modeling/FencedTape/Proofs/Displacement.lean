import FencedTape.Proofs.BigStep

/-! # Displacements of the data pointer

A straight line moves the data pointer and touches cells at offsets from it.  Where the pointer is
matters only for the cell that an offset leads to, so it can just as well stay where it is until the
end: `gather` drops the movements and adds to every offset how far the pointer would have been moved
by then, and `drift` is the one movement that is left to make.  All sums wrap, so the pointer may
leave the tape, or go around the whole range of words, between one touch and the next.

What is done at a position does not depend on the data pointer (`touch_moved`).  So a stroke on a
machine whose pointer is some distance ahead does what its gathered form does on a machine whose
pointer has stayed, and the distance is all that the two machines differ by; `agree` carries it
through a whole line, up to the touch that faults or whose stream fails. -/

set_option autoImplicit false

namespace FencedTape

inductive Touch where
  | adjust (delta : UInt8)
  | set (value : UInt8)
  | read
  | write
  deriving DecidableEq, Repr

/-- A part of a straight line: it moves the data pointer or touches the cell at an offset. -/
inductive Stroke where
  | move (delta : Int64)
  | touch (offset : Int64) (what : Touch)
  deriving DecidableEq, Repr

namespace Stroke

def action : Stroke → Action
  | .move delta => .select delta
  | .touch offset (.adjust delta) => .adjust offset delta
  | .touch offset (.set value) => .set offset value
  | .touch offset .read => .read offset
  | .touch offset .write => .write offset

def instr (stroke : Stroke) : Instr := .act stroke.action

def drift : List Stroke → Int64
  | [] => 0
  | .move delta :: strokes => delta + drift strokes
  | .touch _ _ :: strokes => drift strokes

/-- The touches of a line, for a data pointer that has stayed behind by `distance`. -/
def gather (distance : Int64) : List Stroke → List Stroke
  | [] => []
  | .move delta :: strokes => gather (distance + delta) strokes
  | .touch offset what :: strokes => .touch (offset + distance) what :: gather distance strokes

/-- What is gathered behind the front of a line is ahead by the drift of the front. -/
theorem gather_append (distance : Int64) (front strokes : List Stroke) :
    gather distance (front ++ strokes) =
      gather distance front ++ gather (distance + drift front) strokes := by
  induction front generalizing distance with
  | nil => simp [gather, drift]
  | cons stroke front ih =>
      cases stroke with
      | move delta => simp only [List.cons_append, gather, drift, ih, Int64.add_assoc]
      | touch offset what => simp only [List.cons_append, gather, drift, ih]

end Stroke

/-! ## One stroke -/

namespace Machine

def moved (m : Machine) (distance : Int64) : Machine := { m with dp := m.dp + distance }

def touch (m : Machine) (position : Int64) : Touch → Machine × Outcome
  | .adjust delta => m.update position (· + delta)
  | .set value => m.store position value
  | .read => m.read position
  | .write => m.write position

@[simp] theorem moved_zero (m : Machine) : m.moved 0 = m := by
  rw [moved, Int64.add_zero]

theorem moved_moved (m : Machine) (a b : Int64) : (m.moved a).moved b = m.moved (a + b) := by
  simp only [moved, Int64.add_assoc]

theorem perform_move (m : Machine) (delta : Int64) :
    m.perform (Stroke.move delta).action = (m.moved delta, .done) := rfl

theorem perform_touch (m : Machine) (offset : Int64) (what : Touch) :
    m.perform (Stroke.touch offset what).action = m.touch (m.dp + offset) what := by
  cases what <;> rfl

theorem store_moved (m : Machine) (distance position : Int64) (value : UInt8) :
    (m.moved distance).store position value =
      ((m.store position value).1.moved distance, (m.store position value).2) := by
  have tape : (m.moved distance).tape = m.tape := rfl
  rw [store, store, tape]
  cases m.tape.store? position value <;> rfl

theorem update_moved (m : Machine) (distance position : Int64) (f : UInt8 → UInt8) :
    (m.moved distance).update position f =
      ((m.update position f).1.moved distance, (m.update position f).2) := by
  have tape : (m.moved distance).tape = m.tape := rfl
  rw [update, update, tape]
  cases m.tape.load? position with
  | none => rfl
  | some value => exact m.store_moved distance position (f value)

theorem read_moved (m : Machine) (distance position : Int64) :
    (m.moved distance).read position =
      ((m.read position).1.moved distance, (m.read position).2) := by
  obtain ⟨tape, dp, atEnd, source, sink⟩ := m
  rcases received : source.receive with ⟨r, rest⟩
  simp only [read, moved, received]
  cases r with
  | byte value => exact store_moved ⟨tape, dp, atEnd, rest, sink⟩ distance position value
  | ended =>
      cases atEnd with
      | sentinel value => exact store_moved ⟨tape, dp, _, rest, sink⟩ distance position value
      | unchanged => rfl
  | failed cause => rfl

theorem write_moved (m : Machine) (distance position : Int64) :
    (m.moved distance).write position =
      ((m.write position).1.moved distance, (m.write position).2) := by
  have tape : (m.moved distance).tape = m.tape := rfl
  have output : (m.moved distance).sink = m.sink := rfl
  rw [write, write, tape, output]
  cases m.tape.load? position with
  | none => rfl
  | some value =>
      rcases emitted : m.sink.emit value with ⟨failure, sink⟩
      simp only [emitted]
      cases failure <;> rfl

theorem touch_moved (m : Machine) (distance position : Int64) (what : Touch) :
    (m.moved distance).touch position what =
      ((m.touch position what).1.moved distance, (m.touch position what).2) := by
  cases what with
  | adjust delta => exact m.update_moved distance position _
  | set value => exact m.store_moved distance position value
  | read => exact m.read_moved distance position
  | write => exact m.write_moved distance position

/-- A touch on a machine whose pointer is ahead is the gathered touch on one whose pointer has
stayed. -/
theorem perform_touch_moved {m m' : Machine} {distance offset : Int64} {what : Touch} {o : Outcome}
    (h : m.perform (Stroke.touch (offset + distance) what).action = (m', o)) :
    (m.moved distance).perform (Stroke.touch offset what).action = (m'.moved distance, o) := by
  have position : m.dp + (offset + distance) = (m.moved distance).dp + offset := by
    rw [moved, Int64.add_comm offset, Int64.add_assoc]
  rw [perform_touch, position] at h
  rw [perform_touch, touch_moved, h]

theorem position_of_store {m m' : Machine} {position fault : Int64} {value : UInt8}
    (h : m.store position value = (m', .fault fault)) : fault = position ∧ m'.dp = m.dp := by
  rw [store] at h
  split at h
  · cases h
  · cases h
    exact ⟨rfl, rfl⟩

theorem position_of_touch {m m' : Machine} {position fault : Int64} {what : Touch}
    (h : m.touch position what = (m', .fault fault)) : fault = position ∧ m'.dp = m.dp := by
  cases what with
  | adjust delta =>
      rw [touch, update] at h
      split at h
      · exact position_of_store h
      · cases h
        exact ⟨rfl, rfl⟩
  | set value => exact position_of_store h
  | read =>
      rw [touch, read] at h
      split at h
      · have ended := position_of_store h
        exact ended
      · split at h
        · have ended := position_of_store h
          exact ended
        · cases h
      · cases h
  | write =>
      rw [touch, write] at h
      split at h
      · cases h
        exact ⟨rfl, rfl⟩
      · split at h
        · cases h
        · cases h

end Machine

/-! ## Whole lines -/

namespace Debugger

theorem Executes.ip_of_acts {n : Nat} {d e : Debugger} {o : Outcome} (h : Executes d n e o)
    (acts : ∀ instr ∈ d.program.code, ∃ action, instr = .act action) : e.ip = d.ip + n := by
  induction h with
  | finished ended => rfl
  | stuck live step ne =>
      obtain ⟨machine, rfl, -⟩ := exists_of_stuck live step ne
      rfl
  | @head n d e f o live step _ ih =>
      obtain ⟨instr, fetched⟩ := exists_get?_of_live live
      obtain ⟨action, rfl⟩ := acts instr (Array.mem_of_getElem? fetched)
      rcases performed : d.machine.perform action with ⟨machine, outcome⟩
      have carried : outcome = .done := by
        have same := (step_eq_perform fetched).2
        rw [step, performed] at same
        exact same.symm
      subst carried
      have next := (step_of_act fetched performed).symm.trans step
      have ip : e.ip = d.ip + 1 := by
        rw [← (Prod.mk.inj next).1]
        rfl
      rw [ih (program_of_step step ▸ acts), ip]
      omega

end Debugger

namespace Stroke

open Block (BigStep acts)

def line (strokes : List Stroke) : Block := acts (strokes.map action) .nil

theorem flatten_line (strokes : List Stroke) : (line strokes).flatten = strokes.map instr := by
  rw [line, Block.flatten_acts, Block.flatten, List.append_nil, List.map_map]
  rfl

theorem ofCode_line (strokes : List Stroke) :
    Program.ofCode (strokes.map instr) = .ok (line strokes).program := by
  rw [← flatten_line]
  exact Block.ofCode_flatten _

theorem returns_line {strokes : List Stroke} {m m' : Machine} {n : Nat} {o : Outcome}
    (h : BigStep (line strokes) m n m' o) :
    ∃ d : Debugger, d.machine = m' ∧ d.ip = n ∧
      ∀ e progress, Debugger.Returns (.fresh (line strokes).program m) e progress ↔
        e = d ∧ progress = o.ending := by
  obtain ⟨d, machine, steps, returns⟩ := h.returns
  refine ⟨d, machine, ?_, returns⟩
  obtain ⟨count, executed⟩ :=
    (Debugger.returns_iff_executes rfl).mp ((returns d o.ending).mpr ⟨rfl, rfl⟩)
  have passed : d.steps = 0 + count := executed.steps
  have ip : d.ip = 0 + count := by
    apply executed.ip_of_acts
    intro instr mem
    have written : instr ∈ (line strokes).flatten := by
      simpa [Debugger.fresh, Block.program] using mem
    rw [flatten_line, List.mem_map] at written
    obtain ⟨stroke, -, rfl⟩ := written
    exact ⟨stroke.action, rfl⟩
  omega

/-- How a line ends on a machine whose data pointer is ahead, and how it ends gathered on one whose
pointer has stayed: both come through to the same machine, or both are stuck at the same touch with
machines that differ by how far the pointer is ahead. -/
inductive Agree (distance : Int64) (strokes : List Stroke) (m : Machine) : Prop
  | through (m' : Machine)
      (own : BigStep (line strokes) (m.moved distance) strokes.length m' .done)
      (gathered : BigStep (line (gather distance strokes ++ [.move (distance + drift strokes)])) m
        ((gather distance strokes).length + 1) m' .done)
  | stuck (before after : List Stroke) (offset : Int64) (what : Touch) (m' : Machine) (o : Outcome)
      (ne : o ≠ .done) (split : strokes = before ++ .touch offset what :: after)
      (own : BigStep (line strokes) (m.moved distance) before.length
        (m'.moved (distance + drift before)) o)
      (gathered : BigStep (line (gather distance strokes ++ [.move (distance + drift strokes)])) m
        (gather distance before).length m' o)
      (place : ∀ k, o = .fault k → k = m'.dp + (distance + drift before) + offset)

/-- A movement brings the pointer further ahead, and nothing happens to the machine whose pointer
stays. -/
theorem Agree.move {distance delta : Int64} {strokes : List Stroke} {m : Machine}
    (h : Agree (distance + delta) strokes m) : Agree distance (.move delta :: strokes) m := by
  have first := (m.moved distance).perform_move delta
  rw [Machine.moved_moved] at first
  have further : ∀ rest,
      distance + drift (.move delta :: rest) = distance + delta + drift rest := by
    intro rest
    rw [drift, Int64.add_assoc]
  cases h with
  | through m' own gathered =>
      rw [← further] at gathered
      exact .through m' (.act first own) gathered
  | stuck before after offset what m' o ne split own gathered place =>
      rw [← further] at own gathered place
      refine .stuck (.move delta :: before) after offset what m' o ne ?_ (.act first own) gathered
        place
      rw [split, List.cons_append]

theorem Agree.touch {distance offset : Int64} {what : Touch} {strokes : List Stroke}
    {m m₁ : Machine}
    (stayed : m.perform (Stroke.touch (offset + distance) what).action = (m₁, .done))
    (h : Agree distance strokes m₁) : Agree distance (.touch offset what :: strokes) m := by
  have ahead := Machine.perform_touch_moved stayed
  cases h with
  | through m' own gathered => exact .through m' (.act ahead own) (.act stayed gathered)
  | stuck before after offset' what' m' o ne split own gathered place =>
      refine .stuck (.touch offset what :: before) after offset' what' m' o ne ?_
        (.act ahead own) (.act stayed gathered) place
      rw [split, List.cons_append]

theorem agree_of_stuck {distance offset : Int64} {what : Touch} {m m' : Machine} {o : Outcome}
    (stayed : m.perform (Stroke.touch (offset + distance) what).action = (m', o)) (ne : o ≠ .done)
    (strokes : List Stroke) : Agree distance (.touch offset what :: strokes) m := by
  have ahead := Machine.perform_touch_moved stayed
  have here : distance + drift [] = distance := Int64.add_zero distance
  refine .stuck [] strokes offset what m' o ne rfl ?_ (.actStuck stayed ne) ?_
  · rw [here]
    exact .actStuck ahead ne
  · intro k fault
    subst fault
    rw [Machine.perform_touch] at ahead
    obtain ⟨position, dp⟩ := Machine.position_of_touch ahead
    rw [here, position, ← dp]
    rfl

theorem agree (distance : Int64) (strokes : List Stroke) (m : Machine) :
    Agree distance strokes m := by
  induction strokes generalizing distance m with
  | nil =>
      have last : BigStep (line [.move (distance + 0)]) m 1 (m.moved distance) .done := by
        rw [Int64.add_zero]
        exact .act (m.perform_move distance) (.nil _)
      exact .through (m.moved distance) (.nil _) last
  | cons stroke strokes ih =>
      cases stroke with
      | move delta => exact (ih (distance + delta) m).move
      | touch offset what =>
          rcases stayed : m.perform (touch (offset + distance) what).action with ⟨m₁, o⟩
          by_cases done : o = .done
          · subst done
            exact (ih distance m₁).touch stayed
          · exact agree_of_stuck stayed done strokes

/-- A line can be executed with its data pointer left in place: its touches at the offsets that
count the movements before them, and one movement by the sum of all in the end.  Both programs are
accepted and come to an end, in the same way.  If they come through, they leave the same machine.
If a touch faults, or its stream fails, the other program ends at the same touch, with the same
fault or error and with the same tape and streams; only the data pointer has not been moved yet.  A
fault is at the position that the touch leads to, where there is no cell. -/
theorem moves_gather_into_one (m : Machine) (strokes : List Stroke) :
    ∃ (p q : Program) (d e : Debugger) (o : Outcome),
      Program.ofCode (strokes.map instr) = .ok p ∧
      Program.ofCode ((gather 0 strokes ++ [move (drift strokes)]).map instr) = .ok q ∧
      (∀ f progress, Debugger.Returns (.fresh p m) f progress ↔ f = d ∧ progress = o.ending) ∧
      (∀ f progress, Debugger.Returns (.fresh q m) f progress ↔ f = e ∧ progress = o.ending) ∧
      (o = .done → d.machine = e.machine) ∧
      (o ≠ .done → ∃ before offset what after,
        strokes = before ++ .touch offset what :: after ∧
        d.ip = before.length ∧ e.ip = (gather 0 before).length ∧
        (gather 0 strokes)[e.ip]? = some (.touch (offset + drift before) what) ∧
        d.machine = e.machine.moved (drift before) ∧
        ∀ k, o = .fault k →
          k = d.machine.dp + offset ∧ ¬ (0 ≤ k.toInt ∧ k.toInt < m.tape.usable)) := by
  have alike := agree 0 strokes m
  cases alike with
  | through m' own gathered =>
      rw [Machine.moved_zero] at own
      rw [Int64.zero_add] at gathered
      obtain ⟨d, machine, -, returns⟩ := returns_line own
      obtain ⟨e, machine', -, returns'⟩ := returns_line gathered
      refine ⟨_, _, d, e, .done, ofCode_line _, ofCode_line _, returns, returns', ?_, ?_⟩
      · intro _
        rw [machine, machine']
      · intro ne
        exact absurd rfl ne
  | stuck before after offset what m' o ne split own gathered place =>
      simp only [Machine.moved_zero, Int64.zero_add] at own gathered place
      obtain ⟨d, machine, ip, returns⟩ := returns_line own
      obtain ⟨e, machine', ip', returns'⟩ := returns_line gathered
      refine ⟨_, _, d, e, o, ofCode_line _, ofCode_line _, returns, returns', ?_, ?_⟩
      · intro done
        exact absurd done ne
      · intro _
        refine ⟨before, offset, what, after, split, ip, ip', ?_, ?_, ?_⟩
        · rw [split, gather_append, ip', Int64.zero_add]
          simp [gather]
        · rw [machine, machine']
        · intro k fault
          subst fault
          rw [machine]
          exact ⟨place k rfl, own.outside_of_fault⟩

-- two movements to the far end and the pointer has gone around, to two cells in front of the tape
example :
    gather 0 [.move 9223372036854775807, .touch (-9223372036854775806) .read,
      .move 9223372036854775807, .touch 3 .write] = [.touch 1 .read, .touch 1 .write] ∧
    drift [.move 9223372036854775807, .touch (-9223372036854775806) .read,
      .move 9223372036854775807, .touch 3 .write] = -2 := by decide

end Stroke

end FencedTape
