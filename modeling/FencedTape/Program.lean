import FencedTape.Instr

/-! # Programs

A program is a sequence of instructions whose loops are well nested, together with the table of
where its loop ends jump to.  `Program.ofCode` builds the table in one pass, or says which loop end
has no partner.  Operands are not looked at: whether an access stays on the tape is found out by
the access. -/

set_option autoImplicit false

namespace FencedTape

inductive LoopError where
  | unmatchedOpen (address : Nat)
  | unmatchedClose (address : Nat)
  deriving DecidableEq, Repr

def LoopError.message : LoopError → String
  | .unmatchedOpen address => s!"OPEN at instruction {address} has no matching CLOSE"
  | .unmatchedClose address => s!"CLOSE at instruction {address} has no matching OPEN"

namespace Program

/-- Continues a jump table over the rest of the code.  `waiting` holds the addresses of the loops
that are open, the innermost first, and `table` the targets of the instructions passed.  A loop
end jumps to the instruction after its partner; every other instruction stands for itself. -/
def extendTable : List Instr → (waiting : List Nat) → (table : Array Nat) →
    Except LoopError (Array Nat)
  | [], [], table => .ok table
  | [], address :: _, _ => .error (.unmatchedOpen address)
  | .act _ :: code, waiting, table => extendTable code waiting (table.push table.size)
  | .loopOpen :: code, waiting, table =>
      extendTable code (table.size :: waiting) (table.push table.size)
  | .loopClose :: _, [], table => .error (.unmatchedClose table.size)
  | .loopClose :: code, address :: waiting, table =>
      extendTable code waiting
        ((table.setIfInBounds address (table.size + 1)).push (address + 1))

def jumpTable (code : List Instr) : Except LoopError (Array Nat) := extendTable code [] #[]

theorem size_extendTable {code : List Instr} {waiting : List Nat} {table jumps : Array Nat}
    (h : extendTable code waiting table = .ok jumps) : jumps.size = table.size + code.length := by
  fun_induction extendTable code waiting table with
  | case1 table => cases h; simp
  | case2 | case5 => cases h
  | case3 waiting table action code ih => simp [ih h]; omega
  | case4 waiting table code ih => simp [ih h]; omega
  | case6 table code address waiting ih => simp [ih h]; omega

theorem size_jumpTable {code : List Instr} {jumps : Array Nat} (h : jumpTable code = .ok jumps) :
    jumps.size = code.length := by
  simpa using size_extendTable h

end Program

structure Program where
  code : Array Instr
  /-- Where a loop end at each address jumps to. -/
  jumps : Array Nat
  paired : Program.jumpTable code.toList = .ok jumps
  deriving DecidableEq

namespace Program

def ofCode (code : List Instr) : Except LoopError Program :=
  match h : jumpTable code with
  | .ok jumps => .ok { code := code.toArray, jumps, paired := h }
  | .error e => .error e

def size (p : Program) : Nat := p.code.size

def isEmpty (p : Program) : Bool := p.code.isEmpty

def get? (p : Program) (address : Nat) : Option Instr := p.code[address]?

/-- Where the loop end at `address` jumps to: the instruction after its partner. -/
def jumpTarget (p : Program) (address : Nat) : Nat := p.jumps.getD address address

/-- The depth after an instruction that is reached at depth `depth`.  Nothing keeps the count from
going below zero. -/
def depthAfter (depth : Int) : Instr → Int
  | .act _ => depth
  | .loopOpen => depth + 1
  | .loopClose => depth - 1

/-- The greatest depth at which a loop body starts in code that is reached at depth `depth`, or
zero. -/
def deepest (depth : Int) : List Instr → Int
  | [] => 0
  | .loopOpen :: code => max (depth + 1) (deepest (depth + 1) code)
  | instr :: code => deepest (depthAfter depth instr) code

def maxDepth (p : Program) : Nat := (deepest 0 p.code.toList).toNat

theorem size_jumps (p : Program) : p.jumps.size = p.size := by
  simpa [size] using size_jumpTable p.paired

theorem ext_code {p q : Program} (h : p.code = q.code) : p = q := by
  obtain ⟨code, jumps, paired⟩ := p
  obtain ⟨code', jumps', paired'⟩ := q
  cases h
  cases paired.symm.trans paired'
  rfl

theorem code_of_ofCode {code : List Instr} {p : Program} (h : ofCode code = .ok p) :
    p.code.toList = code := by
  rw [ofCode] at h
  split at h
  · cases h; rfl
  · cases h

theorem ofCode_code (p : Program) : ofCode p.code.toList = .ok p := by
  rw [ofCode]
  split
  · exact congrArg Except.ok (ext_code (by simp))
  · next h => cases h.symm.trans p.paired

theorem ofCode_eq_error_iff {code : List Instr} {e : LoopError} :
    ofCode code = .error e ↔ jumpTable code = .error e := by
  rw [ofCode]
  split
  · next h => simp [h]
  · next h => simp [h]

end Program

end FencedTape
