import FencedTape.Proofs.Block

/-! # Balanced code and the partners of its loop ends

Code is balanced if it is that of a block.  `Encloses code first last` says of two positions that a
loop starts at the one and ends at the other: what stands between them is balanced.  Neither looks
at a jump table.

The pass that builds the table keeps the loops that are open on a stack, so what is left of the code
has to close as many loops as wait there (`closing_of_extendTable`).  It writes the target of a
start only while the start waits, and all other entries for good (`getElem?_of_extendTable`).  Hence
just the balanced code is accepted, and the two ends of each loop lead behind each other. -/

set_option autoImplicit false

namespace FencedTape

def Balanced (code : List Instr) : Prop := ∃ b : Block, b.flatten = code

structure Encloses (code : List Instr) (first last : Nat) : Prop where
  less : first < last
  opens : code[first]? = some .loopOpen
  closes : code[last]? = some .loopClose
  inside : Balanced (code.extract (first + 1) last)

/-- The code brings `count` loops to their end that are open before it, and leaves none open. -/
def Closing : (count : Nat) → List Instr → Prop
  | 0, code => Balanced code
  | count + 1, code =>
      ∃ body : Block, ∃ rest, code = body.flatten ++ .loopClose :: rest ∧ Closing count rest

theorem exists_cut {code : List Instr} {address : Nat} {instr : Instr}
    (h : code[address]? = some instr) :
    ∃ before after, code = before ++ instr :: after ∧ before.length = address := by
  obtain ⟨bound, here⟩ := List.getElem?_eq_some_iff.mp h
  refine ⟨code.take address, code.drop (address + 1), ?_, ?_⟩
  · rw [← here, ← List.drop_eq_getElem_cons bound, List.take_append_drop]
  · rw [List.length_take, Nat.min_eq_left (Nat.le_of_lt bound)]

theorem balanced_flatten (b : Block) : Balanced b.flatten := ⟨b, rfl⟩

/-! ## What is accepted -/

theorem Closing.act {count : Nat} {code : List Instr} (h : Closing count code) (action : Action) :
    Closing count (.act action :: code) := by
  cases count with
  | zero =>
      obtain ⟨b, rfl⟩ := h
      exact ⟨.act action b, rfl⟩
  | succ count =>
      obtain ⟨body, rest, rfl, later⟩ := h
      exact ⟨.act action body, rest, rfl, later⟩

/-- A start in front takes the first end for its own. -/
theorem Closing.loopOpen {count : Nat} {code : List Instr} (h : Closing (count + 1) code) :
    Closing count (.loopOpen :: code) := by
  obtain ⟨body, rest, rfl, later⟩ := h
  cases count with
  | zero =>
      obtain ⟨b, rfl⟩ := later
      exact ⟨.loop body b, rfl⟩
  | succ count =>
      obtain ⟨next, rest, rfl, later⟩ := later
      refine ⟨.loop body next, rest, ?_, later⟩
      simp [Block.flatten]

theorem Closing.loopClose {count : Nat} {code : List Instr} (h : Closing count code) :
    Closing (count + 1) (.loopClose :: code) :=
  ⟨.nil, code, rfl, h⟩

theorem closing_of_extendTable {code : List Instr} {waiting : List Nat} {table jumps : Array Nat}
    (h : Program.extendTable code waiting table = .ok jumps) : Closing waiting.length code := by
  fun_induction Program.extendTable code waiting table with
  | case1 table => exact ⟨.nil, rfl⟩
  | case2 | case5 => cases h
  | case3 action code waiting table ih => exact (ih h).act action
  | case4 code waiting table ih => exact (ih h).loopOpen
  | case6 code address waiting table ih => exact (ih h).loopClose

theorem exists_ofCode_iff {code : List Instr} :
    (∃ p, Program.ofCode code = .ok p) ↔ Balanced code := by
  constructor
  · rintro ⟨p, accepted⟩
    have paired := p.paired
    rw [Program.code_of_ofCode accepted] at paired
    exact closing_of_extendTable paired
  · rintro ⟨b, rfl⟩
    exact ⟨b.program, b.ofCode_flatten⟩

/-! ## Entries of the table -/

theorem exists_extendTable_of_cons {instr : Instr} {code : List Instr} {waiting : List Nat}
    {table jumps : Array Nat} (h : Program.extendTable (instr :: code) waiting table = .ok jumps)
    (behind : ∀ address ∈ waiting, address < table.size) :
    ∃ waiting' table', Program.extendTable code waiting' table' = .ok jumps ∧
      table'.size = table.size + 1 ∧ ∀ address ∈ waiting', address < table.size + 1 := by
  cases instr with
  | act action =>
      rw [Program.extendTable] at h
      refine ⟨waiting, _, h, Array.size_push .., ?_⟩
      intro address mem
      exact Nat.lt_succ_of_lt (behind address mem)
  | loopOpen =>
      rw [Program.extendTable] at h
      refine ⟨table.size :: waiting, _, h, Array.size_push .., ?_⟩
      intro address mem
      rcases List.mem_cons.mp mem with rfl | mem
      · exact Nat.lt_succ_self _
      · exact Nat.lt_succ_of_lt (behind address mem)
  | loopClose =>
      cases waiting with
      | nil => simp [Program.extendTable] at h
      | cons first waiting =>
          rw [Program.extendTable] at h
          refine ⟨waiting, _, h, ?_, ?_⟩
          · rw [Array.size_push, Array.size_setIfInBounds]
          · intro address mem
            exact Nat.lt_succ_of_lt (behind address (List.mem_cons_of_mem first mem))

theorem exists_extendTable_of_append {before code : List Instr} {waiting : List Nat}
    {table jumps : Array Nat}
    (h : Program.extendTable (before ++ code) waiting table = .ok jumps)
    (behind : ∀ address ∈ waiting, address < table.size) :
    ∃ waiting' table', Program.extendTable code waiting' table' = .ok jumps ∧
      table'.size = table.size + before.length ∧ ∀ address ∈ waiting', address < table'.size := by
  induction before generalizing waiting table with
  | nil => exact ⟨waiting, table, h, rfl, behind⟩
  | cons instr before ih =>
      obtain ⟨waiting₁, table₁, next, size₁, behind₁⟩ := exists_extendTable_of_cons h behind
      obtain ⟨waiting', table', rest, size, behind'⟩ := ih next (size₁ ▸ behind₁)
      refine ⟨waiting', table', rest, ?_, behind'⟩
      rw [size, size₁, List.length_cons]
      omega

/-- An entry is final unless its instruction waits for a partner. -/
theorem getElem?_of_extendTable {code : List Instr} {waiting : List Nat} {table jumps : Array Nat}
    (h : Program.extendTable code waiting table = .ok jumps) {address : Nat}
    (inside : address < table.size) (settled : address ∉ waiting) :
    jumps[address]? = table[address]? := by
  fun_induction Program.extendTable code waiting table with
  | case1 table =>
      cases h
      rfl
  | case2 | case5 => cases h
  | case3 action code waiting table ih =>
      have kept := ih h (by rw [Array.size_push]; omega) settled
      rw [kept, Array.getElem?_push_lt inside, Array.getElem?_eq_getElem inside]
  | case4 code waiting table ih =>
      have free : address ∉ table.size :: waiting := by
        intro mem
        rcases List.mem_cons.mp mem with eq | mem
        · omega
        · exact settled mem
      have kept := ih h (by rw [Array.size_push]; omega) free
      rw [kept, Array.getElem?_push_lt inside, Array.getElem?_eq_getElem inside]
  | case6 code first waiting table ih =>
      have other : first ≠ address := fun eq => settled (eq ▸ List.mem_cons_self)
      have inside' : address < (table.setIfInBounds first (table.size + 1)).size := by
        rwa [Array.size_setIfInBounds]
      have kept := ih h (by rw [Array.size_push]; omega)
        fun mem => settled (List.mem_cons_of_mem first mem)
      rw [kept, Array.getElem?_push_lt inside', ← Array.getElem?_eq_getElem inside',
        Array.getElem?_setIfInBounds_ne other]

theorem jumpTarget_of_getElem? {p : Program} {address target : Nat}
    (h : p.jumps[address]? = some target) : p.jumpTarget address = target := by
  rw [Program.jumpTarget, Array.getD_eq_getD_getElem?, h, Option.getD_some]

theorem jumpTarget_of_act {p : Program} {before after : List Instr} {action : Action}
    (code : p.code.toList = before ++ .act action :: after) :
    p.jumpTarget before.length = before.length := by
  have paired := p.paired
  rw [code, Program.jumpTable] at paired
  obtain ⟨waiting, table, rest, size, behind⟩ := exists_extendTable_of_append paired (by simp)
  have size' : table.size = before.length := by simpa using size
  rw [Program.extendTable] at rest
  have settled : table.size ∉ waiting := fun mem => Nat.lt_irrefl _ (behind _ mem)
  have inside : table.size < (table.push table.size).size := by simp
  have entry := getElem?_of_extendTable rest inside settled
  rw [Array.getElem?_push_size, size'] at entry
  exact jumpTarget_of_getElem? entry

/-- While the body of a loop is passed its start waits on top of the stack, so the end takes it. -/
theorem jumpTarget_of_loop {p : Program} {before after : List Instr} {body : Block}
    (code : p.code.toList = before ++ .loopOpen :: (body.flatten ++ .loopClose :: after)) :
    p.jumpTarget before.length = before.length + body.size + 1 + 1 ∧
      p.jumpTarget (before.length + body.size + 1) = before.length + 1 := by
  have paired := p.paired
  rw [code, Program.jumpTable] at paired
  obtain ⟨waiting, table, rest, size, behind⟩ := exists_extendTable_of_append paired (by simp)
  have size' : table.size = before.length := by simpa using size
  rw [Program.extendTable, Block.extendTable_flatten, Array.size_push, Program.extendTable] at rest
  generalize passed : table.push table.size ++ (body.targets (table.size + 1)).toArray = inner
    at rest
  have sizeInner : inner.size = before.length + body.size + 1 := by
    rw [← passed]
    simp only [Array.size_append, Array.size_push, List.size_toArray, Block.length_targets]
    omega
  have start : before.length ∉ waiting := by
    intro mem
    have less := behind _ mem
    omega
  have stop : before.length + body.size + 1 ∉ waiting := by
    intro mem
    have less := behind _ mem
    omega
  have total : ((inner.setIfInBounds table.size (inner.size + 1)).push (table.size + 1)).size =
      before.length + body.size + 2 := by
    rw [Array.size_push, Array.size_setIfInBounds, sizeInner]
  have atStart := getElem?_of_extendTable rest (by omega) start
  have atStop := getElem?_of_extendTable rest (by omega) stop
  constructor
  · apply jumpTarget_of_getElem?
    rw [atStart, Array.getElem?_push, Array.size_setIfInBounds, if_neg (by omega), size',
      Array.getElem?_setIfInBounds_self_of_lt (by omega), sizeInner]
  · apply jumpTarget_of_getElem?
    rw [atStop, Array.getElem?_push, Array.size_setIfInBounds, if_pos sizeInner.symm, size']

/-! ## Partners -/

theorem extract_between (before inner after : List Instr) (opening closing : Instr) :
    (before ++ opening :: (inner ++ closing :: after)).extract (before.length + 1)
      (before.length + inner.length + 1) = inner := by
  have length : before.length + inner.length + 1 - (before.length + 1) = inner.length := by omega
  rw [List.extract_eq_take_drop, length]
  simp

/-- The two ends of a loop cut the code into the body and what stands around the loop. -/
theorem encloses_iff {code : List Instr} {first last : Nat} :
    Encloses code first last ↔
      ∃ before after, ∃ body : Block,
        code = before ++ .loopOpen :: (body.flatten ++ .loopClose :: after) ∧
          before.length = first ∧ before.length + body.size + 1 = last := by
  constructor
  · rintro ⟨less, opens, closes, body, inside⟩
    obtain ⟨before, rest, rfl, rfl⟩ := exists_cut opens
    obtain ⟨offset, rfl⟩ := Nat.exists_eq_add_of_lt less
    rw [Nat.add_assoc, List.getElem?_append_right (Nat.le_add_right _ _), Nat.add_sub_cancel_left,
      List.getElem?_cons_succ] at closes
    obtain ⟨inner, after, rfl, rfl⟩ := exists_cut closes
    rw [extract_between] at inside
    refine ⟨before, after, body, by rw [inside], rfl, ?_⟩
    rw [← body.length_flatten, inside]
  · rintro ⟨before, after, body, rfl, rfl, rfl⟩
    rw [← body.length_flatten]
    refine ⟨by omega, by simp, ?_, body, ?_⟩
    · rw [Nat.add_assoc, List.getElem?_append_right (Nat.le_add_right _ _), Nat.add_sub_cancel_left]
      simp
    · rw [extract_between]

theorem Encloses.within {code : List Instr} {first last : Nat} (h : Encloses code first last)
    (before after : List Instr) :
    Encloses (before ++ (code ++ after)) (before.length + first) (before.length + last) := by
  obtain ⟨front, back, body, rfl, rfl, rfl⟩ := encloses_iff.mp h
  refine encloses_iff.mpr ⟨before ++ front, back ++ after, body, by simp, by simp, ?_⟩
  rw [List.length_append]
  omega

theorem Encloses.jumpTarget {p : Program} {first last : Nat}
    (h : Encloses p.code.toList first last) :
    p.jumpTarget first = last + 1 ∧ p.jumpTarget last = first + 1 := by
  obtain ⟨before, after, body, code, rfl, rfl⟩ := encloses_iff.mp h
  exact jumpTarget_of_loop code

theorem exists_end {code : List Instr} (balanced : Balanced code) {first : Nat}
    (opens : code[first]? = some .loopOpen) : ∃ last, Encloses code first last := by
  obtain ⟨p, accepted⟩ := exists_ofCode_iff.mpr balanced
  have paired := p.paired
  rw [Program.code_of_ofCode accepted] at paired
  obtain ⟨before, rest, rfl, rfl⟩ := exists_cut opens
  -- the start waits after it has been passed, so the code behind it closes one loop at least
  obtain ⟨waiting, table, passed, -, -⟩ := exists_extendTable_of_append paired (by simp)
  rw [Program.extendTable] at passed
  obtain ⟨body, after, rfl, -⟩ := closing_of_extendTable passed
  exact ⟨_, encloses_iff.mpr ⟨before, after, body, rfl, rfl, rfl⟩⟩

theorem exists_start_of_eq (b : Block) {before after : List Instr}
    (h : b.flatten = before ++ .loopClose :: after) :
    ∃ front, ∃ body : Block, before = front ++ .loopOpen :: body.flatten := by
  induction b generalizing before after with
  | nil => simp [Block.flatten] at h
  | act action rest ih =>
      cases before with
      | nil => simp [Block.flatten] at h
      | cons instr before =>
          obtain ⟨rfl, later⟩ := List.cons.inj h
          obtain ⟨front, body, rfl⟩ := ih later
          exact ⟨.act action :: front, body, rfl⟩
  | loop body rest ihBody ihRest =>
      cases before with
      | nil => simp [Block.flatten] at h
      | cons instr before =>
          obtain ⟨rfl, later⟩ := List.cons.inj h
          rcases List.append_eq_append_iff.mp later with
            ⟨between, rfl, tail⟩ | ⟨between, head, tail⟩
          · cases between with
            | nil => exact ⟨[], body, by simp⟩
            | cons instr between =>
                obtain ⟨rfl, remainder⟩ := List.cons.inj tail
                obtain ⟨front, inner, rfl⟩ := ihRest remainder
                exact ⟨.loopOpen :: (body.flatten ++ .loopClose :: front), inner, by simp⟩
          · cases between with
            | nil =>
                refine ⟨[], body, ?_⟩
                rw [head]
                simp
            | cons instr between =>
                obtain ⟨rfl, -⟩ := List.cons.inj tail
                obtain ⟨front, inner, rfl⟩ := ihBody head
                exact ⟨.loopOpen :: front, inner, rfl⟩

theorem exists_start {code : List Instr} (balanced : Balanced code) {last : Nat}
    (closes : code[last]? = some .loopClose) : ∃ first, Encloses code first last := by
  obtain ⟨before, after, cut, rfl⟩ := exists_cut closes
  obtain ⟨b, rfl⟩ := balanced
  obtain ⟨front, body, rfl⟩ := exists_start_of_eq b cut
  refine ⟨front.length, encloses_iff.mpr ⟨front, after, body, by simp [cut], rfl, ?_⟩⟩
  rw [List.length_append, List.length_cons, body.length_flatten]
  omega

theorem Encloses.unique {code : List Instr} (balanced : Balanced code)
    {first last first' last' : Nat} (left : Encloses code first last)
    (right : Encloses code first' last') : first = first' ↔ last = last' := by
  obtain ⟨p, accepted⟩ := exists_ofCode_iff.mpr balanced
  have same := Program.code_of_ofCode accepted
  rw [← same] at left right
  obtain ⟨there, back⟩ := left.jumpTarget
  obtain ⟨there', back'⟩ := right.jumpTarget
  constructor
  · rintro rfl
    omega
  · rintro rfl
    omega

theorem Encloses.last_lt {code : List Instr} (balanced : Balanced code)
    {first last first' last' : Nat} (outer : Encloses code first last)
    (inner : Encloses code first' last') (after : first < first') (before : first' < last) :
    last' < last := by
  obtain ⟨front, back, body, rfl, rfl, rfl⟩ := encloses_iff.mp outer
  obtain ⟨offset, rfl⟩ := Nat.exists_eq_add_of_lt after
  have inside : offset < body.flatten.length := by
    rw [body.length_flatten]
    omega
  have opens := inner.opens
  rw [Nat.add_assoc, List.getElem?_append_right (Nat.le_add_right _ _), Nat.add_sub_cancel_left,
    List.getElem?_cons_succ, List.getElem?_append_left inside] at opens
  obtain ⟨stop, enclosed⟩ := exists_end (balanced_flatten body) opens
  have less : stop < body.size := by
    rw [← body.length_flatten]
    exact (List.getElem?_eq_some_iff.mp enclosed.closes).1
  have placed := enclosed.within (front ++ [.loopOpen]) (.loopClose :: back)
  have code : (front ++ [.loopOpen]) ++ (body.flatten ++ .loopClose :: back) =
      front ++ .loopOpen :: (body.flatten ++ .loopClose :: back) := by simp
  have length : (front ++ [Instr.loopOpen]).length = front.length + 1 := by simp
  rw [code, length] at placed
  have same := (placed.unique balanced inner).mp (by omega)
  omega

theorem Encloses.apart_or_nested {code : List Instr} (balanced : Balanced code)
    {first last first' last' : Nat} (left : Encloses code first last)
    (right : Encloses code first' last') :
    last < first' ∨ last' < first ∨ (first ≤ first' ∧ last' ≤ last) ∨
      (first' ≤ first ∧ last ≤ last') := by
  have differ : first' ≠ last := by
    rintro rfl
    cases right.opens.symm.trans left.closes
  have differ' : first ≠ last' := by
    rintro rfl
    cases left.opens.symm.trans right.closes
  rcases Nat.lt_trichotomy first first' with less | same | less
  · by_cases before : first' < last
    · have within := left.last_lt balanced right less before
      omega
    · omega
  · have ends := (left.unique balanced right).mp same
    omega
  · by_cases before : first < last'
    · have within := right.last_lt balanced left less before
      omega
    · omega

/-- Code is accepted exactly if it is balanced.  The program made of it has the same instructions
and a table with an entry for each.  Every loop end has exactly one partner and leads to the
instruction after it, any two loops are apart or nested, and every other instruction stands for
itself. -/
theorem accepted_iff_balanced_and_paired (code : List Instr) :
    ((∃ p, Program.ofCode code = .ok p) ↔ Balanced code) ∧
    ∀ p, Program.ofCode code = .ok p →
      p.code.toList = code ∧ p.jumps.size = code.length ∧
      (∀ first, code[first]? = some .loopOpen → ∃! last, Encloses code first last) ∧
      (∀ last, code[last]? = some .loopClose → ∃! first, Encloses code first last) ∧
      (∀ first last, Encloses code first last →
        p.jumpTarget first = last + 1 ∧ p.jumpTarget last = first + 1) ∧
      (∀ first last first' last', Encloses code first last → Encloses code first' last' →
        last < first' ∨ last' < first ∨ (first ≤ first' ∧ last' ≤ last) ∨
          (first' ≤ first ∧ last ≤ last')) ∧
      ∀ address action, code[address]? = some (.act action) → p.jumpTarget address = address := by
  refine ⟨exists_ofCode_iff, ?_⟩
  intro p accepted
  have balanced := exists_ofCode_iff.mp ⟨p, accepted⟩
  have same := Program.code_of_ofCode accepted
  subst same
  refine ⟨rfl, p.size_jumps, ?_, ?_, ?_, ?_, ?_⟩
  · intro first opens
    obtain ⟨last, encloses⟩ := exists_end balanced opens
    exact ⟨last, encloses, fun other right => (right.unique balanced encloses).mp rfl⟩
  · intro last closes
    obtain ⟨first, encloses⟩ := exists_start balanced closes
    exact ⟨first, encloses, fun other right => (right.unique balanced encloses).mpr rfl⟩
  · intro first last encloses
    exact encloses.jumpTarget
  · intro first last first' last' left right
    exact left.apart_or_nested balanced right
  · intro address action fetched
    obtain ⟨before, after, cut, rfl⟩ := exists_cut fetched
    exact jumpTarget_of_act cut

end FencedTape
