import FencedTape.Stream
import Mathlib.Data.List.Basic

/-! # Calls to streams that may fail

`Script.after count s` is what is left of a script once `count` calls have been made, and
`Script.hits count s` are the mishaps that struck them.  A request makes as many calls as it takes
for one not to be interrupted, so at most the last of them breaks down (`exists_settle`).  A request
that fails moves no byte and leaves a shorter script; one that does not has the effect that it has
on a stream without a script (`Source.receive_cases`, `Sink.emit_cases`). -/

set_option autoImplicit false

namespace FencedTape

def Mishap.isBreakdown : Mishap → Bool
  | .interrupted _ => false
  | .breakdown _ => true

namespace Script

def after : Nat → Script → Script
  | 0, s => s
  | count + 1, s => after count s.next.2

def hits : Nat → Script → List Mishap
  | 0, _ => []
  | count + 1, s => s.next.1.toList ++ hits count s.next.2

/-- Between two scripts lie some calls, of which `failures` broke down. -/
def Spent (s t : Script) (failures : Nat) : Prop :=
  ∃ count, t = s.after count ∧ (s.hits count).countP Mishap.isBreakdown = failures

def mishaps (s : Script) : List Mishap := s.map Prod.snd

theorem after_add (m n : Nat) (s : Script) : s.after (m + n) = (s.after m).after n := by
  induction m generalizing s with
  | zero => simp [after]
  | succ m ih =>
      rw [Nat.succ_add]
      exact ih s.next.2

theorem hits_add (m n : Nat) (s : Script) :
    s.hits (m + n) = s.hits m ++ (s.after m).hits n := by
  induction m generalizing s with
  | zero => simp [hits, after]
  | succ m ih =>
      rw [Nat.succ_add, hits, hits, ih, List.append_assoc]
      rfl

theorem Spent.refl (s : Script) : Spent s s 0 := ⟨0, rfl, rfl⟩

theorem Spent.trans {s t u : Script} {i j : Nat} (first : Spent s t i) (rest : Spent t u j) :
    Spent s u (i + j) := by
  obtain ⟨m, rfl, rfl⟩ := first
  obtain ⟨n, rfl, rfl⟩ := rest
  refine ⟨m + n, (after_add m n s).symm, ?_⟩
  rw [hits_add, List.countP_append]

theorem mishaps_next (s : Script) : s.mishaps = s.next.1.toList ++ s.next.2.mishaps := by
  fun_cases next s <;> simp [mishaps]

/-- What has struck and what is left make up a script. -/
theorem mishaps_eq (count : Nat) (s : Script) :
    s.mishaps = s.hits count ++ (s.after count).mishaps := by
  induction count generalizing s with
  | zero => rfl
  | succ count ih => rw [hits, after, List.append_assoc, ← ih, ← mishaps_next]

theorem Spent.subset {s t : Script} {failures : Nat} (h : Spent s t failures) {mishap : Mishap}
    (mem : mishap ∈ t.mishaps) : mishap ∈ s.mishaps := by
  obtain ⟨count, rfl, -⟩ := h
  rw [mishaps_eq count s]
  exact List.mem_append_right _ mem

theorem Spent.length_le {s t : Script} {failures : Nat} (h : Spent s t failures) :
    t.length + failures ≤ s.length := by
  obtain ⟨count, rfl, rfl⟩ := h
  have parts := congrArg List.length (mishaps_eq count s)
  have most := List.countP_le_length (p := Mishap.isBreakdown) (l := s.hits count)
  simp only [mishaps, List.length_append, List.length_map] at parts
  omega

theorem exists_settle (s : Script) :
    ∃ count, s.settle.2 = s.after count ∧
      (s.hits count).filter Mishap.isBreakdown = s.settle.1.toList.map Mishap.breakdown := by
  fun_induction settle s with
  | case1 => exact ⟨1, rfl, rfl⟩
  | case2 cause rest ih =>
      obtain ⟨count, left, struck⟩ := ih
      exact ⟨count + 1, left, struck⟩
  | case3 b rest => exact ⟨1, rfl, rfl⟩
  | case4 good mishap rest => exact ⟨1, rfl, rfl⟩

theorem settle_cases (s : Script) :
    (∃ t, s.settle = (none, t) ∧ Spent s t 0) ∨
      ∃ b t, s.settle = (some b, t) ∧ Spent s t 1 ∧ .breakdown b ∈ s.mishaps := by
  obtain ⟨count, left, struck⟩ := exists_settle s
  rcases settled : s.settle with ⟨result, t⟩
  rw [settled] at left struck
  have spent : Spent s t result.toList.length := by
    refine ⟨count, left, ?_⟩
    rw [List.countP_eq_length_filter, struck, List.length_map]
  cases result with
  | none => exact Or.inl ⟨t, rfl, spent⟩
  | some b =>
      have hit : .breakdown b ∈ s.hits count := by
        apply List.mem_of_mem_filter (p := Mishap.isBreakdown)
        rw [struck]
        exact List.mem_cons_self
      refine Or.inr ⟨b, t, rfl, spent, ?_⟩
      rw [mishaps_eq count s]
      exact List.mem_append_left _ hit

end Script

/-! ## Requests -/

namespace Source

/-- The same input, with nothing that goes wrong. -/
def quiet (s : Source) : Source := { s with mishaps := [] }

/-- Nothing that goes wrong is taken for the end of the input. -/
def Transient (s : Source) : Prop :=
  ∀ b, .breakdown b ∈ s.mishaps.mishaps → ∃ cause, b = .failed cause

theorem Transient.spent {s t : Source} {failures : Nat} (h : s.Transient)
    (spent : Script.Spent s.mishaps t.mishaps failures) : t.Transient :=
  fun b mem => h b (spent.subset mem)

theorem receive_cases {s : Source} (transient : s.Transient) :
    (∃ r t, s.receive = (r, t) ∧ s.quiet.receive = (r, t.quiet) ∧
      Script.Spent s.mishaps t.mishaps 0) ∨
    ∃ cause t, s.receive = (.failed cause, t) ∧ t.quiet = s.quiet ∧
      Script.Spent s.mishaps t.mishaps 1 := by
  obtain ⟨bytes, script⟩ := s
  rcases Script.settle_cases script with ⟨t, settled, spent⟩ | ⟨b, t, settled, spent, struck⟩
  · left
    cases bytes with
    | nil => exact ⟨.ended, ⟨[], t⟩, by simp only [receive, settled], rfl, spent⟩
    | cons value bytes =>
        exact ⟨.byte value, ⟨bytes, t⟩, by simp only [receive, settled], rfl, spent⟩
  · right
    obtain ⟨cause, rfl⟩ := transient b struck
    exact ⟨.failed cause, ⟨bytes, t⟩, by simp only [receive, settled], rfl, spent⟩

end Source

namespace Sink

/-- The same output, with nothing that goes wrong. -/
def quiet (s : Sink) : Sink := { s with writeMishaps := [], flushMishaps := [] }

theorem emit_cases {s : Sink} (flushes : s.flushMishaps = []) (value : UInt8) :
    (∃ t, s.emit value = (none, t) ∧ s.quiet.emit value = (none, t.quiet) ∧
      t.flushMishaps = [] ∧ Script.Spent s.writeMishaps t.writeMishaps 0) ∨
    ∃ cause t, s.emit value = (some cause, t) ∧ t.quiet = s.quiet ∧ t.flushMishaps = [] ∧
      Script.Spent s.writeMishaps t.writeMishaps 1 := by
  obtain ⟨output, count, script, flushScript⟩ := s
  cases flushes
  rcases Script.settle_cases script with ⟨t, settled, spent⟩ | ⟨b, t, settled, spent, -⟩
  · left
    refine ⟨⟨output.push value, count + 1, t, []⟩, ?_, rfl, rfl, spent⟩
    simp only [emit, write, settled]
    rfl
  · right
    cases b with
    | empty =>
        exact ⟨.incompleteWrite, ⟨output, count, t, []⟩, by simp only [emit, write, settled], rfl,
          rfl, spent⟩
    | ended cause | failed cause =>
        exact ⟨.failed cause, ⟨output, count, t, []⟩, by simp only [emit, write, settled], rfl,
          rfl, spent⟩

end Sink

end FencedTape
