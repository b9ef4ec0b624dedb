import FencedTape.Proofs.Controls
import FencedTape.Proofs.Landing
import FencedTape.Proofs.LargerTape
import FencedTape.Proofs.Ledger

/-! # The cells between the tape and its fence

A tape is rounded up to whole pages, and the cells that this adds are zero at first.  They stay zero
as long as every instruction that stores a byte does so on the tape.  `Machine.target?` says where
an action stores, and apart from that it leaves the tape alone (`tape_of_perform`); controls do not
get at those cells at all.  So there is an account of them (`zeroTail_account`), whatever is asked
of a debugger.

Hence a scan to the right that leaves the tape ends at a zero, unless the tape fills its pages.
Then it ends where there is no cell, as does a scan to the left that leaves the tape, and nothing
can be accessed there (`Machine.Stranded`). -/

set_option autoImplicit false

namespace FencedTape

namespace Tape

def ZeroTail (t : Tape) : Prop := ∀ i, t.len ≤ i → i < t.usable → t.cells.get i = 0

theorem zeroTail_blank (len usable : Nat) (covers : len ≤ usable)
    (small : usable < 0x8000000000000000) : (blank len usable covers small).ZeroTail := by
  intro i _ _
  exact Memory.get_zero i

theorem ZeroTail.setCell {t : Tape} {index : Nat} (zeros : t.ZeroTail) (inside : index < t.len)
    (value : UInt8) : (t.setCell index value).ZeroTail := by
  intro i behind below
  have other : index ≠ i := by
    have le : t.len ≤ i := behind
    omega
  rw [Tape.setCell, Memory.get_set, if_neg other]
  exact zeros i behind below

theorem ZeroTail.store? {t t' : Tape} {position : Int64} {value : UInt8} (zeros : t.ZeroTail)
    (inside : t.OnTape position) (stored : t.store? position value = some t') : t'.ZeroTail := by
  obtain ⟨index, found, rfl⟩ := Option.map_eq_some_iff.mp stored
  exact zeros.setCell ((onTape_iff found).mp inside) value

theorem index?_of_onTape {t : Tape} {position : Int64} (inside : t.OnTape position) :
    ∃ index < t.len, t.index? position = some index := by
  obtain ⟨index, less, found⟩ := exists_index?_of_onTape inside
  exact ⟨index, less, found t (Nat.le_refl _)⟩

theorem exists_scan_left {t : Tape} {position : Int64} (inside : t.OnTape position) :
    ∃ dp, t.scan position .left = .ok dp ∧
      (t.load? dp = some 0 ∨ dp.toInt = -1 ∧ t.index? dp = none) := by
  have covers := t.len_le_usable
  obtain ⟨index, less, found⟩ := index?_of_onTape inside
  cases searched : zeroDown t.cells index with
  | some nearest =>
      obtain ⟨below, zeroAt, -⟩ := zeroDown_eq_some_iff.mp searched
      refine ⟨Int64.ofNat nearest, ?_, Or.inl ?_⟩
      · simp only [scan_left_eq, found, searched]
      · rw [load?_ofNat (by omega), zeroAt]
  | none =>
      refine ⟨-1, ?_, Or.inr ⟨rfl, t.index?_neg_one⟩⟩
      simp only [scan_left_eq, found, searched, if_pos less]

/-- A scan to the right ends at a zero, or behind a tape that fills its pages. -/
theorem ZeroTail.exists_scan_right {t : Tape} {position : Int64} (zeros : t.ZeroTail)
    (inside : t.OnTape position) :
    ∃ dp, t.scan position .right = .ok dp ∧
      (t.load? dp = some 0 ∨ t.len = t.usable ∧ dp.toInt = t.len ∧ t.index? dp = none) := by
  have covers := t.len_le_usable
  obtain ⟨index, less, found⟩ := index?_of_onTape inside
  cases searched : zeroUp t.cells index (t.len - index) with
  | some nearest =>
      obtain ⟨-, below, zeroAt, -⟩ := zeroUp_eq_some_iff.mp searched
      refine ⟨Int64.ofNat nearest, ?_, Or.inl ?_⟩
      · simp only [scan_right_eq, found, if_pos less, searched]
      · rw [load?_ofNat (by omega), zeroAt]
  | none =>
      refine ⟨Int64.ofNat t.len, ?_, ?_⟩
      · simp only [scan_right_eq, found, if_pos less, searched]
      · by_cases full : t.len = t.usable
        · refine Or.inr ⟨full, toInt_ofNat_of_le covers, ?_⟩
          rw [full]
          exact t.index?_usable
        · have below : t.len < t.usable := by omega
          left
          rw [load?_ofNat below, zeros t.len (Nat.le_refl _) below]

end Tape

namespace Machine

/-- The position at which an action stores a byte, if it is carried out and stores one. -/
def target? (m : Machine) (action : Action) : Option Int64 :=
  if (m.perform action).2 = .done then
    match action with
    | .adjust offset _ | .set offset _ | .multiplyAdd offset _ => some (m.dp + offset)
    | .read offset => if m.readStores then some (m.dp + offset) else none
    | .select _ | .write _ | .scan _ => none
  else none

/-- All that storing at a position of the tape `t` can come to, as far as the tape is concerned. -/
inductive Deposit (t : Tape) (position : Int64) : Machine × Outcome → Prop
  | refused {m : Machine} {o : Outcome} (kept : m.tape = t) (undone : o ≠ .done) :
      Deposit t position (m, o)
  | made {m : Machine} {value : UInt8} (stored : t.store? position value = some m.tape) :
      Deposit t position (m, .done)

theorem deposit_store (m : Machine) (position : Int64) (value : UInt8) :
    Deposit m.tape position (m.store position value) := by
  rw [store]
  cases stored : m.tape.store? position value with
  | none => exact .refused rfl (by simp)
  | some tape => exact .made stored

theorem deposit_update (m : Machine) (position : Int64) (f : UInt8 → UInt8) :
    Deposit m.tape position (m.update position f) := by
  rw [update]
  cases m.tape.load? position with
  | none => exact .refused rfl (by simp)
  | some value => exact m.deposit_store position (f value)

theorem read_of_readStores (m : Machine) (position : Int64) :
    ∃ source, if m.readStores then ∃ value, m.read position = { m with source }.store position value
      else ∃ o, m.read position = ({ m with source }, o) := by
  obtain ⟨tape, dp, atEnd, source, sink⟩ := m
  rcases received : source.receive with ⟨r, rest⟩
  refine ⟨rest, ?_⟩
  cases r with
  | byte value =>
      simp only [readStores, read, received, if_true]
      exact ⟨value, rfl⟩
  | ended =>
      cases atEnd with
      | sentinel value =>
          simp only [readStores, read, received, if_true]
          exact ⟨value, rfl⟩
      | unchanged =>
          simp only [readStores, read, received, Bool.false_eq_true, if_false]
          exact ⟨.done, rfl⟩
  | failed cause =>
      simp only [readStores, read, received, Bool.false_eq_true, if_false]
      exact ⟨.failed cause, rfl⟩

theorem tape_of_write (m : Machine) (position : Int64) : (m.write position).1.tape = m.tape := by
  rw [write]
  split
  · rfl
  · split <;> rfl

/-- What an action does to the tape is one store at its target, if it has one. -/
theorem tape_of_perform (m : Machine) (action : Action) :
    (m.perform action).1.tape = m.tape ∨
      ∃ position value, m.target? action = some position ∧
        m.tape.store? position value = some (m.perform action).1.tape := by
  have settle : ∀ position, Deposit m.tape position (m.perform action) →
      ((m.perform action).2 = .done → m.target? action = some position) →
      (m.perform action).1.tape = m.tape ∨
        ∃ position value, m.target? action = some position ∧
          m.tape.store? position value = some (m.perform action).1.tape := by
    intro position deposit target
    generalize m.perform action = result at deposit target ⊢
    cases deposit with
    | refused kept _ => exact Or.inl kept
    | @made _ value stored => exact Or.inr ⟨position, value, target rfl, stored⟩
  cases action with
  | adjust offset delta =>
      exact settle _ (m.deposit_update _ _) fun done => if_pos done
  | select delta => exact Or.inl rfl
  | read offset =>
      obtain ⟨source, result⟩ := m.read_of_readStores (m.dp + offset)
      cases stores : m.readStores with
      | false =>
          rw [stores] at result
          obtain ⟨o, unstored⟩ := result
          rw [perform, unstored]
          exact Or.inl rfl
      | true =>
          rw [stores] at result
          obtain ⟨value, stored⟩ := result
          refine settle (m.dp + offset) ?_ ?_
          · rw [perform, stored]
            exact deposit_store { m with source } _ value
          · intro done
            simp only [target?, if_pos done, stores, if_true]
  | write offset => exact Or.inl (m.tape_of_write _)
  | set offset value =>
      exact settle _ (m.deposit_store _ value) fun done => if_pos done
  | multiplyAdd offset factor =>
      refine settle (m.dp + offset) ?_ fun done => if_pos done
      rw [perform]
      cases m.tape.load? m.dp with
      | none => exact .refused rfl (by simp)
      | some value => exact m.deposit_update _ _
  | scan direction =>
      left
      rw [perform]
      split
      · rfl
      · rfl

/-- Whichever instruction comes next, if it accesses the current cell, it faults there. -/
def Stranded (m : Machine) : Prop :=
  ∀ d : Debugger, d.machine = m → m.dp ∈ d.accesses → d.step.2 = .fault m.dp

theorem store_of_outside {m : Machine} {position : Int64} (outside : m.tape.index? position = none)
    (value : UInt8) : (m.store position value).2 = .fault position := by
  have unstored : m.tape.store? position value = none := by
    rw [Tape.store?, outside]
    rfl
  rw [store, unstored]

theorem perform_of_outside {m : Machine} {action : Action} (outside : m.tape.index? m.dp = none)
    (accessed : m.dp ∈ m.accesses action) : (m.perform action).2 = .fault m.dp := by
  have unloaded : m.tape.load? m.dp = none :=
    Tape.load?_of_outside outside
  cases action with
  | adjust offset delta =>
      have here : m.dp = m.dp + offset := List.mem_singleton.mp accessed
      rw [perform, ← here, update, unloaded]
  | select delta => cases accessed
  | read offset =>
      rw [accesses] at accessed
      cases stores : m.readStores with
      | false => simp [stores] at accessed
      | true =>
          simp only [stores, if_true, List.mem_singleton] at accessed
          obtain ⟨source, result⟩ := m.read_of_readStores (m.dp + offset)
          rw [stores] at result
          obtain ⟨value, stored⟩ := result
          rw [perform, stored, ← accessed]
          exact store_of_outside (m := { m with source }) outside value
  | write offset =>
      have here : m.dp = m.dp + offset := List.mem_singleton.mp accessed
      rw [perform, ← here, write, unloaded]
  | set offset value =>
      have here : m.dp = m.dp + offset := List.mem_singleton.mp accessed
      rw [perform, ← here]
      exact store_of_outside outside value
  | multiplyAdd offset factor => rw [perform, unloaded]
  | scan direction =>
      rw [perform, Tape.scan_of_outside outside]

theorem stranded_of_outside {m : Machine} (outside : m.tape.index? m.dp = none) : m.Stranded := by
  rintro d rfl accessed
  have unloaded : d.machine.tape.load? d.machine.dp = none :=
    Tape.load?_of_outside outside
  cases fetched : d.program.get? d.ip with
  | none =>
      rw [Debugger.accesses, fetched] at accessed
      cases accessed
  | some instr =>
      cases instr with
      | act action =>
          rw [Debugger.accesses, fetched] at accessed
          rw [(Debugger.step_eq_perform fetched).2]
          exact perform_of_outside outside accessed
      | loopOpen => rw [Debugger.step_of_loopOpen fetched, Debugger.branch_of_none unloaded]
      | loopClose => rw [Debugger.step_of_loopClose fetched, Debugger.branch_of_none unloaded]

end Machine

namespace Debugger

def target? (d : Debugger) : Option Int64 :=
  match d.program.get? d.ip with
  | some (.act action) => d.machine.target? action
  | none | some .loopOpen | some .loopClose => none

def Confined (tries : List Debugger) : Prop :=
  ∀ t ∈ tries, ∀ position, t.target? = some position → t.machine.tape.OnTape position

/-! ## The tail stays zero -/

theorem zeroTail_step {d : Debugger} (zeros : d.machine.tape.ZeroTail)
    (inside : ∀ position, d.target? = some position → d.machine.tape.OnTape position) :
    d.step.1.machine.tape.ZeroTail := by
  cases fetched : d.program.get? d.ip with
  | none =>
      rw [step, fetched]
      exact zeros
  | some instr =>
      cases instr with
      | act action =>
          rw [(step_eq_perform fetched).1]
          rcases d.machine.tape_of_perform action with kept | ⟨position, value, target, stored⟩
          · rw [kept]
            exact zeros
          · have here : d.target? = some position := by
              simp only [Debugger.target?, fetched, target]
            exact zeros.store? (inside position here) stored
      | loopOpen =>
          rw [step_of_loopOpen fetched, machine_branch]
          exact zeros
      | loopClose =>
          rw [step_of_loopClose fetched, machine_branch]
          exact zeros

theorem Grants.zeroTail {d e : Debugger} {request : Request} {reply : Reply} {address bound : Nat}
    (granted : d.Grants request e reply) (checked : request.checked? d = some (address, bound))
    (inside : address < bound) (zeros : d.machine.tape.ZeroTail) : e.machine.tape.ZeroTail := by
  cases granted with
  | setBreakpoint | peek | jump | select => exact zeros
  | deleteBreakpoint => cases checked
  | @poke index value tape len usable cells =>
      cases checked
      intro i behind below
      change tape.len ≤ i at behind
      change i < tape.usable at below
      have other : address ≠ i := by omega
      change tape.cells.get i = 0
      rw [cells, if_neg other]
      exact zeros i (by omega) (by omega)

theorem zeroTail_of_checked {d : Debugger} {request : Request} {address bound limit : Nat}
    (checked : request.checked? d = some (address, bound)) (zeros : d.machine.tape.ZeroTail) :
    (d.handle limit request).1.machine.tape.ZeroTail := by
  by_cases inside : address < bound
  · exact (grants_of_in_bounds checked inside limit).zeroTail checked inside zeros
  · rw [handle_of_out_of_bounds checked (Nat.le_of_not_lt inside)]
    exact zeros

theorem zeroTail_of_control {limit : Nat} {request : Request} {d e : Debugger} {reply : Reply}
    (noRun : request ≠ .run) (noStep : request ≠ .step)
    (h : d.handle limit request = (e, reply)) (zeros : d.machine.tape.ZeroTail) :
    e.machine.tape.ZeroTail := by
  have left : e = (d.handle limit request).1 := (congrArg Prod.fst h).symm
  rw [left]
  cases request with
  | run => exact absurd rfl noRun
  | step => exact absurd rfl noStep
  | deleteBreakpoint address => exact zeros
  | setPointer index => exact zeros
  | setBreakpoint | peek | poke | jump | select => exact zeroTail_of_checked rfl zeros

theorem zeroTail_account : Account fun d tries e => Confined tries → d.machine.tape.ZeroTail →
    e.machine.tape.ZeroTail ∧ ∀ t ∈ tries, t.machine.tape.ZeroTail where
  still := by
    intro d e same _ zeros
    rw [same]
    exact ⟨zeros, by simp⟩
  control := by
    intro limit request d e reply noRun noStep handled _ zeros
    exact ⟨zeroTail_of_control noRun noStep handled zeros, by simp⟩
  attempt := by
    intro d confined zeros
    have inside := confined d List.mem_cons_self
    refine ⟨zeroTail_step zeros inside, ?_⟩
    intro t mem
    cases List.mem_singleton.mp mem
    exact zeros
  trans := by
    intro d e f tries more first rest confined zeros
    obtain ⟨between, before⟩ := first (fun t mem => confined t (List.mem_append_left _ mem)) zeros
    obtain ⟨after, later⟩ := rest (fun t mem => confined t (List.mem_append_right _ mem)) between
    refine ⟨after, ?_⟩
    intro t mem
    rcases List.mem_append.mp mem with mem | mem
    · exact before t mem
    · exact later t mem

/-! ## Where scans leave the tape -/

theorem step_of_scan {d : Debugger} {direction : Direction} {dp : Int64}
    (fetched : d.program.get? d.ip = some (.act (.scan direction)))
    (scanned : d.machine.tape.scan d.machine.dp direction = .ok dp) :
    d.step = ({ d with machine := { d.machine with dp } }.arrive (d.ip + 1), .done) := by
  apply step_of_act fetched
  simp only [Machine.perform, scanned]

/-- The tail stays zero, whatever is asked of a debugger, as long as instructions store on the tape
only: at every moment, and before and after each attempt.  So every scan that starts on the tape is
carried out, and leaves the data pointer at a zero or where nothing can be accessed; to the right
that is only behind a tape that fills its pages. -/
theorem tail_stays_zero (d e : Debugger) (tries : List Debugger)
    (zeros : d.machine.tape.ZeroTail) (h : Attempted d tries e) (confined : Confined tries) :
    e.machine.tape.ZeroTail ∧
    (∀ t ∈ tries, t.machine.tape.ZeroTail ∧ t.step.1.machine.tape.ZeroTail) ∧
    ∀ t ∈ tries, t.machine.tape.OnTape t.machine.dp →
      (t.program.get? t.ip = some (.act (.scan .right)) →
        ∃ f, t.step = (f, .done) ∧
          (f.machine.tape.load? f.machine.dp = some 0 ∨
            f.machine.tape.len = f.machine.tape.usable ∧
              f.machine.dp.toInt = f.machine.tape.len ∧ f.machine.Stranded)) ∧
      (t.program.get? t.ip = some (.act (.scan .left)) →
        ∃ f, t.step = (f, .done) ∧
          (f.machine.tape.load? f.machine.dp = some 0 ∨
            f.machine.dp.toInt = -1 ∧ f.machine.Stranded)) := by
  obtain ⟨after, before⟩ := zeroTail_account.attempted h confined zeros
  refine ⟨after, ?_, ?_⟩
  · intro t mem
    exact ⟨before t mem, zeroTail_step (before t mem) (confined t mem)⟩
  · intro t mem inside
    constructor
    · intro fetched
      obtain ⟨dp, scanned, landed⟩ := (before t mem).exists_scan_right inside
      refine ⟨_, step_of_scan fetched scanned, ?_⟩
      rcases landed with zeroAt | ⟨full, value, outside⟩
      · exact Or.inl zeroAt
      · exact Or.inr ⟨full, value, Machine.stranded_of_outside outside⟩
    · intro fetched
      obtain ⟨dp, scanned, landed⟩ := Tape.exists_scan_left inside
      refine ⟨_, step_of_scan fetched scanned, ?_⟩
      rcases landed with zeroAt | ⟨value, outside⟩
      · exact Or.inl zeroAt
      · exact Or.inr ⟨value, Machine.stranded_of_outside outside⟩

theorem tail_after_leap :
    Machine.start generous { tapeSize := 1 } {} {} = .ok oneCell ∧
    ∃ tries e, Attempted (fresh leap oneCell) tries e ∧ Confined tries ∧
      e.machine.tape.ZeroTail ∧ e.machine.dp = 1 ∧
      ∃ t ∈ tries, t.program.get? t.ip = some (.act (.scan .right)) ∧
        ∃ f, t.step = (f, .done) ∧ f.machine.tape.load? f.machine.dp = some 0 := by
  obtain ⟨d, poked, e, ran, sets, scans, tried, target, cell, none, fetched, inside, wide, dp⟩ :
      ∃ d, (fresh leap oneCell).handle 1 (.poke 0 7) = (d, .value 0) ∧
      ∃ e, d.handle 3 .run = (e, .finished) ∧
      ∃ sets scans, [] ++ (fresh leap oneCell).attempts 1 (.poke 0 7) ++ d.attempts 3 .run =
          [sets, scans] ∧
        sets.target? = some 0 ∧ sets.machine.tape.OnTape 0 ∧ scans.target? = none ∧
        scans.program.get? scans.ip = some (.act (.scan .right)) ∧
        scans.machine.tape.OnTape scans.machine.dp ∧
        scans.step.1.machine.tape.len ≠ scans.step.1.machine.tape.usable ∧
        e.machine.dp = 1 :=
    ⟨_, rfl, _, rfl, _, _, rfl, rfl, by decide, rfl, rfl, by decide, by decide, rfl⟩
  have attempted : Attempted (fresh leap oneCell) [sets, scans] e := by
    rw [← tried]
    exact (Attempted.start.request 1 (.poke 0 7) poked).request 3 .run ran
  have confined : Confined [sets, scans] := by
    intro t mem position stored
    rcases List.mem_pair.mp mem with rfl | rfl
    · cases target.symm.trans stored
      exact cell
    · cases none.symm.trans stored
  have blank : (fresh leap oneCell).machine.tape.ZeroTail := Tape.zeroTail_blank 1 4096 _ _
  obtain ⟨zeros, -, landing⟩ := tail_stays_zero _ _ _ blank attempted confined
  have last : scans ∈ [sets, scans] := by simp
  obtain ⟨f, stepped, landed⟩ := (landing scans last inside).1 fetched
  rw [stepped] at wide
  have zeroAt := landed.resolve_right fun missed => wide missed.1
  exact ⟨rfl, _, _, attempted, confined, zeros, dp, scans, last, fetched, f, stepped, zeroAt⟩

end Debugger

end FencedTape
