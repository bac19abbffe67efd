import Tickwise.Compile.Statement
set_option autoImplicit false

/-!
# Jumps and the constructs around them

A jump leaves a loop or switch around it, or continues a loop. The compiler resolves it among the constructs that
it stands in.
-/
namespace Tickwise

open Compile Compiler

/-- A jump: `break` or `continue`, to a construct with a label or without one. -/
structure Jump where
  isBreak : Bool
  label : Option String
  deriving DecidableEq

def Jump.target? (j : Jump) (breakables : List Breakable) : Option Breakable :=
  jumpTarget? breakables j.isBreak j.label

def Jump.Aims (j : Jump) (breakables : List Breakable) : Prop :=
  ∃ b, j.target? breakables = some b ∧ (j.isBreak = true ∨ b.isLoop = true)

def Jump.suits (j : Jump) (b : Breakable) : Bool :=
  match j.label with
  | some l => b.label = some l
  | none => j.isBreak || b.isLoop

def Jump.takenBy (j : Jump) (b : Breakable) : Bool :=
  (j.isBreak || b.isLoop) && (j.label.isNone || j.label = b.label)

namespace Jump

variable {j : Jump} {b : Breakable} {bs inner outer : List Breakable}

theorem target?_eq_find? (j : Jump) (bs : List Breakable) : j.target? bs = bs.find? j.suits := by
  obtain ⟨isBreak, _ | label⟩ := j <;> rfl

theorem target?_append_cons (unsuited : ∀ b ∈ inner, j.suits b = false) (suits : j.suits b = true) :
    j.target? (inner ++ b :: outer) = some b := by
  rw [target?_eq_find?, List.find?_append, List.find?_eq_none.2 fun b hb => by simp [unsuited b hb],
    List.find?_cons_of_pos suits]
  rfl

theorem not_aims_nil : ¬ j.Aims [] := by
  rintro ⟨b, target, _⟩
  rw [target?_eq_find?] at target
  cases target

/-- The innermost construct takes a jump exactly if the jump was compiled to leave it. -/
theorem Aims.cons_cases (h : j.Aims (b :: bs)) :
    j.takenBy b = true ∧ j.suits b = true ∨ j.takenBy b = false ∧ j.suits b = false ∧ j.Aims bs := by
  obtain ⟨c, target, leads⟩ := h
  rw [target?_eq_find?, List.find?_cons] at target
  -- `suits` is asked when a jump is compiled, `takenBy` when it is met: for jumps that aim, they agree.
  cases suits : j.suits b with
  | true =>
    rw [suits] at target
    cases target
    refine .inl ⟨?_, rfl⟩
    obtain ⟨isBreak, _ | label⟩ := j <;> simp_all [takenBy, Jump.suits]
  | false =>
    rw [suits] at target
    refine .inr ⟨?_, rfl, c, (target?_eq_find? ..).trans target, leads⟩
    obtain ⟨isBreak, _ | label⟩ := j
    · simp_all [takenBy, Jump.suits]
    · simp_all [takenBy, Jump.suits, Ne.symm]

end Jump

namespace Form

variable {ι : Type}

def jump? : Form ι → Option Jump
  | .breakTo label => some ⟨true, label⟩
  | .continueTo label => some ⟨false, label⟩
  | _ => none

def breakable? : Form ι → Option Breakable
  | .whileLoop label .. | .doWhile label .. | .forLoop label .. => some ⟨label, true⟩
  | .switch label .. => some ⟨label, false⟩
  | _ => none

def isStraight : Form ι → Bool
  | .declList _ | .declare .. | .literal _ | .load _ | .store .. | .step .. | .binary .. | .logical .. | .unary .. |
    .ternary .. | .convert .. | .call .. | .new _ | .list .. => true
  | _ => false

def nextTurn : Form ι → Nat
  | .doWhile .. => 2
  | .forLoop .. => 4
  | _ => 0

def statements : Form ι → List ι
  | .block body => body
  | .branch _ yes no => yes :: no.toList
  | .whileLoop _ _ body | .doWhile _ body _ | .forLoop _ _ _ _ body => [body]
  | .switch _ _ _ body => body
  | .tryCatch body catches => body :: catches.map Catch.handler
  | _ => []

def expressions : Form ι → List ι
  | .block _ => []
  | .branch cond _ _ | .whileLoop _ cond _ | .doWhile _ _ cond => [cond]
  | .forLoop _ init cond next _ => init ++ cond.toList ++ next
  | .switch _ value _ _ => [value]
  | .tryCatch _ catches => catches.map Catch.filter
  | form => form.children

theorem mem_children_iff {form : Form ι} {c : ι} :
    c ∈ form.children ↔ c ∈ form.statements ∨ c ∈ form.expressions := by
  cases form with
  | tryCatch body catches => simp [children, statements, expressions]; grind
  | _ => simp [children, statements, expressions] <;> grind

theorem isStraight_cases {form : Form ι} (h : form.isStraight = true) :
    form.jump? = none ∧ form.statements = [] ∧ form.expressions = form.children := by
  cases form <;> first | exact ⟨rfl, rfl, rfl⟩ | cases h

end Form

end Tickwise
