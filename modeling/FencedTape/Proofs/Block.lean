import FencedTape.Program
import Mathlib.Data.List.Basic

/-! # Structured programs

A block is a sequence of actions and of loops around blocks.  `Block.flatten` writes it as code, a
loop between its two ends, and such code is always accepted: `jumpTable_flatten` gives the whole
jump table.  What a program holds is then read off the block: `Placed p b base` says that `p` has
the code of `b` from the address `base` on, and that its loop ends there jump to the instruction
after their partner. -/

set_option autoImplicit false

namespace FencedTape

inductive Block where
  | nil
  | act (action : Action) (rest : Block)
  | loop (body rest : Block)
  deriving DecidableEq, Repr

namespace Block

def flatten : Block → List Instr
  | .nil => []
  | .act action rest => .act action :: rest.flatten
  | .loop body rest => .loopOpen :: (body.flatten ++ .loopClose :: rest.flatten)

/-- Actions one after the other, and the rest after them. -/
def acts (actions : List Action) (rest : Block) : Block := actions.foldr .act rest

def size : Block → Nat
  | .nil => 0
  | .act _ rest => rest.size + 1
  | .loop body rest => body.size + rest.size + 2

/-- The jump targets of the instructions of a block that starts at the address `base`. -/
def targets : Block → (base : Nat) → List Nat
  | .nil, _ => []
  | .act _ rest, base => base :: rest.targets (base + 1)
  | .loop body rest, base =>
      (base + body.size + 2) ::
        (body.targets (base + 1) ++ (base + 1) :: rest.targets (base + body.size + 2))

def Placed (p : Program) : Block → (base : Nat) → Prop
  | .nil, _ => True
  | .act action rest, base => p.get? base = some (.act action) ∧ Placed p rest (base + 1)
  | .loop body rest, base =>
      (p.get? base = some .loopOpen ∧ p.jumpTarget base = base + body.size + 2) ∧
      (p.get? (base + body.size + 1) = some .loopClose ∧
        p.jumpTarget (base + body.size + 1) = base + 1) ∧
      Placed p body (base + 1) ∧ Placed p rest (base + body.size + 2)

theorem flatten_acts (actions : List Action) (rest : Block) :
    (acts actions rest).flatten = actions.map .act ++ rest.flatten := by
  induction actions with
  | nil => rfl
  | cons action actions ih =>
      rw [List.map_cons, List.cons_append, ← ih]
      rfl

theorem length_flatten (b : Block) : b.flatten.length = b.size := by
  induction b with
  | nil => rfl
  | act action rest ih => simp [flatten, size, ih]
  | loop body rest ihBody ihRest =>
      simp only [flatten, size, List.length_cons, List.length_append, ihBody, ihRest]
      omega

theorem length_targets (b : Block) (base : Nat) : (b.targets base).length = b.size := by
  induction b generalizing base with
  | nil => rfl
  | act action rest ih => simp [targets, size, ih]
  | loop body rest ihBody ihRest =>
      simp only [targets, size, List.length_cons, List.length_append, ihBody, ihRest]
      omega

/-! ## The jump table -/

/-- The code of a block is passed without a trace on the loops that are open around it. -/
theorem extendTable_flatten (b : Block) (code : List Instr) (waiting : List Nat)
    (table : Array Nat) :
    Program.extendTable (b.flatten ++ code) waiting table =
      Program.extendTable code waiting (table ++ (b.targets table.size).toArray) := by
  induction b generalizing code waiting table with
  | nil => simp [flatten, targets]
  | act action rest ih =>
      have step := ih code waiting (table.push table.size)
      rw [Array.size_push] at step
      rw [flatten, List.cons_append, Program.extendTable, step, targets]
      simp
  | loop body rest ihBody ihRest =>
      -- the start of this loop waits on top while the body is passed, and its end takes it off
      have inner := ihBody (.loopClose :: (rest.flatten ++ code)) (table.size :: waiting)
        (table.push table.size)
      rw [Array.size_push] at inner
      have sizeInner : (table.push table.size ++ (body.targets (table.size + 1)).toArray).size =
          table.size + body.size + 1 := by
        simp only [Array.size_append, Array.size_push, List.size_toArray, length_targets]
        omega
      rw [flatten, List.cons_append, List.append_assoc, List.cons_append, Program.extendTable,
        inner, Program.extendTable, ihRest, sizeInner]
      congr 1
      apply Array.toList_inj.mp
      simp [targets, length_targets, Nat.add_assoc]

theorem jumpTable_flatten (b : Block) :
    Program.jumpTable b.flatten = .ok (b.targets 0).toArray := by
  have passed := extendTable_flatten b [] [] #[]
  simpa [Program.jumpTable, Program.extendTable] using passed

def program (b : Block) : Program where
  code := b.flatten.toArray
  jumps := (b.targets 0).toArray
  paired := jumpTable_flatten b

theorem ofCode_flatten (b : Block) : Program.ofCode b.flatten = .ok b.program :=
  Program.ofCode_code b.program

theorem size_program (b : Block) : b.program.size = b.size := by
  simp [Program.size, program, length_flatten]

/-! ## Where the parts of a block are -/

theorem get?_of_code_eq {p : Program} {before after : List Instr} {instr : Instr}
    (h : p.code.toList = before ++ instr :: after) : p.get? before.length = some instr := by
  rw [Program.get?, ← Array.getElem?_toList, h]
  simp

theorem jumpTarget_of_jumps_eq {p : Program} {before after : List Nat} {target : Nat}
    (h : p.jumps.toList = before ++ target :: after) :
    p.jumpTarget before.length = target := by
  rw [Program.jumpTarget, Array.getD_eq_getD_getElem?, ← Array.getElem?_toList, h]
  simp

theorem placed_of_eq (p : Program) (b : Block) (base : Nat) (before after : List Instr)
    (earlier later : List Nat) (code : p.code.toList = before ++ (b.flatten ++ after))
    (jumps : p.jumps.toList = earlier ++ (b.targets base ++ later))
    (beforeLength : before.length = base) (earlierLength : earlier.length = base) :
    Placed p b base := by
  induction b generalizing base before after earlier later with
  | nil => trivial
  | act action rest ih =>
      simp only [flatten, List.cons_append] at code
      simp only [targets, List.cons_append] at jumps
      refine ⟨beforeLength ▸ get?_of_code_eq code, ?_⟩
      exact ih (base + 1) (before ++ [.act action]) after (earlier ++ [base]) later
        (by simpa using code) (by simpa using jumps) (by simpa using beforeLength)
        (by simpa using earlierLength)
  | loop body rest ihBody ihRest =>
      simp only [flatten, List.cons_append, List.append_assoc] at code
      simp only [targets, List.cons_append, List.append_assoc] at jumps
      -- the same two lists, cut in front of the end of the loop
      have codeEnd : p.code.toList = (before ++ .loopOpen :: body.flatten) ++
          .loopClose :: (rest.flatten ++ after) := by simpa using code
      have jumpsEnd : p.jumps.toList =
          (earlier ++ (base + body.size + 2) :: body.targets (base + 1)) ++
            (base + 1) :: (rest.targets (base + body.size + 2) ++ later) := by simpa using jumps
      have beforeEnd : (before ++ .loopOpen :: body.flatten).length = base + body.size + 1 := by
        simp only [List.length_append, List.length_cons, length_flatten]
        omega
      have earlierEnd : (earlier ++ (base + body.size + 2) :: body.targets (base + 1)).length =
          base + body.size + 1 := by
        simp only [List.length_append, List.length_cons, length_targets]
        omega
      refine ⟨⟨beforeLength ▸ get?_of_code_eq code, ?_⟩, ⟨?_, ?_⟩, ?_, ?_⟩
      · have target := jumpTarget_of_jumps_eq jumps
        rwa [earlierLength] at target
      · have fetched := get?_of_code_eq codeEnd
        rwa [beforeEnd] at fetched
      · have target := jumpTarget_of_jumps_eq jumpsEnd
        rwa [earlierEnd] at target
      · exact ihBody (base + 1) (before ++ [.loopOpen]) (.loopClose :: (rest.flatten ++ after))
          (earlier ++ [base + body.size + 2])
          ((base + 1) :: (rest.targets (base + body.size + 2) ++ later))
          (by simpa using code) (by simpa using jumps) (by simpa using beforeLength)
          (by simpa using earlierLength)
      · refine ihRest (base + body.size + 2) ((before ++ .loopOpen :: body.flatten) ++ [.loopClose])
          after ((earlier ++ (base + body.size + 2) :: body.targets (base + 1)) ++ [base + 1]) later
          (by simpa using code) (by simpa using jumps) ?_ ?_
        · rw [List.length_append, beforeEnd]
          rfl
        · rw [List.length_append, earlierEnd]
          rfl

theorem placed_program (b : Block) : Placed b.program b 0 :=
  placed_of_eq b.program b 0 [] [] [] [] (by simp [program]) (by simp [program]) rfl rfl

end Block

end FencedTape
