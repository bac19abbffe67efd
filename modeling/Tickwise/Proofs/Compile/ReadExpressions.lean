import Tickwise.Compile.Statement
import Tickwise.Proofs.Compile.Reads
set_option autoImplicit false

/-!
# Expressions only read

The routines for expressions leave the scopes as they find them: the frames that they open are closed again,
and nothing is declared in those.
-/
namespace Tickwise

open Compile Compiler

/-- The routines of a level for expressions leave the scopes alone. -/
structure Level.Reading (lv : Level) : Prop where
  expression : Compiler.Reads lv.expression
  ternary : Compiler.Reads lv.ternary
  binary : ∀ floor, Compiler.Reads (lv.binary floor)
  unary : Compiler.Reads lv.unary
  primary : Compiler.Reads lv.primary

namespace Compiler.Reads

variable {α β : Type} {c : Compiler α} {lv : Level}

theorem node (span : Span) (form : Form Instr) : Reads (node span form) := ⟨fun _ _ => .inl ⟨_, rfl, rfl⟩⟩

theorem inFrame (isBlock : Bool) (h : Reads c) : Reads (inFrame isBlock c) := by
  refine ⟨fun ctx s => ?_⟩
  have inside := h.leaves ctx { s with scopes := s.scopes.push isBlock }
  unfold Compiler.inFrame
  generalize c ctx { s with scopes := s.scopes.push isBlock } = r at inside
  obtain ⟨answer, s'⟩ := r
  rcases inside with ⟨a, rfl, same⟩ | ⟨cause, span, rfl, same⟩
  · change s'.scopes = _ at same
    refine .inl ⟨a, rfl, ?_⟩
    change s'.scopes.pop = _
    rw [same]
    rfl
  · change s'.scopes = _ at same
    refine .inr ⟨cause, span, rfl, ?_⟩
    change s'.scopes.pop = _
    rw [same]
    unfold ScopeStack.recordError ScopeStack.push ScopeStack.pop
    dsimp only
    split <;> rfl

theorem resolveCall (name : String) (span : Span) (args : List Ty) :
    Reads (onScopes? fun s => s.resolveCall name span args) := by
  refine ⟨fun ctx s => ?_⟩
  unfold onScopes? ScopeStack.resolveCall
  dsimp only
  split
  case h_1 r _ => exact .inl ⟨r, rfl, rfl⟩
  all_goals exact .inr ⟨_, span, rfl, rfl⟩

theorem nonVoid (e : Operand) : Reads (nonVoid e) := .ite (.fail _ _) (.pure _)

theorem widen (e : Operand) (target : Ty) : Reads (widen e target) := .ite (.node _ _) (.pure _)

theorem coerce (e : Operand) (target : Ty) (span : Span) : Reads (coerce e target span) :=
  .bind (.nonVoid e) fun _ => .ite (.widen e target) (.fail _ _)

theorem operandType (op : BinaryOp) (left right : Ty) (span : Span) : Reads (operandType op left right span) := by
  refine .ite (.fail _ _) ?_
  split
  · exact .pure _
  · exact .fail _ _

theorem connect (span : Span) (connective : Connective) (left right : Operand) :
    Reads (connect span connective left right) := by
  cases connective with
  | binary op =>
    exact .bind (.operandType ..) fun ty => .bind (.widen left ty) fun _ => .bind (.widen right ty) fun _ =>
      .bind (.node _ _) fun _ => .pure _
  | logical isAnd => exact .ite (.fail _ _) (.ite (.fail _ _) (.bind (.node _ _) fun _ => .pure _))

theorem value (h : lv.Reading) : Reads (value lv) :=
  .bind h.expression fun e => .bind (.nonVoid e) fun _ => .pure e

theorem condition (h : lv.Reading) : Reads (condition lv) := .bind (.value h) fun _ => .ite (.pure _) (.fail _ _)

theorem integer (h : lv.Reading) (cause : CompileError.Cause) : Reads (integer lv cause) :=
  .bind (.value h) fun _ => .ite (.pure _) (.fail _ _)

theorem placeOf (e : Operand) (span : Span) : Reads (placeOf e span) := by
  unfold Compiler.placeOf
  split
  · exact .pure _
  · exact .fail _ _

theorem assignment (op : Operator) (span : Span) (place : Place Instr) (e : Operand) :
    Reads (assignment op span place e) := by
  refine .bind (.nonVoid e) fun _ => ?_
  have stored (form : Form Instr) :
      Reads (do return (⟨← Compiler.node span form, place.ty, none⟩ : Operand)) :=
    .bind (.node span form) fun _ => .pure _
  dsimp only
  split
  · exact .bind (.coerce e place.ty span) fun _ => .bind (.pure _) stored
  · split
    · exact .bind (.fail _ _) stored
    · exact .bind (.operandType ..) fun _ => .ite (.bind (.pure _) stored) (.bind (.fail _ _) stored)

theorem expressionBody (h : lv.Reading) : Reads (expressionBody lv) := by
  refine .bind h.ternary fun target => .bind .peek? fun token? => ?_
  split
  · exact .ite (.bind .advance? fun _ => .bind (.placeOf target _) fun place =>
      .bind h.expression fun e => .assignment _ _ place e) (.pure _)
  · exact .pure _

theorem ternaryBody (h : lv.Reading) : Reads (ternaryBody lv) := by
  refine .bind (h.binary 0) fun cond => .bind (.eatIf _) fun question? => ?_
  split
  · exact .pure _
  · refine .ite (.fail _ _) (.bind (.value h) fun yes => .bind (.expect _ _) fun _ =>
      .bind h.ternary fun no => .bind (.nonVoid no) fun _ => ?_)
    split
    · exact .fail _ _
    · exact .bind (.widen yes _) fun _ => .bind (.widen no _) fun _ => .bind (.node _ _) fun _ => .pure _

theorem eatBinding (floor : Nat) : Reads (eatBinding floor) := by
  refine .bind .peek? fun token? => ?_
  split
  · split
    · exact .ite (.bind .advance? fun _ => .pure _) (.pure _)
    · exact .pure _
  · exact .pure _

theorem binaryBody (h : lv.Reading) (floor : Nat) : Reads (binaryBody lv floor) := by
  refine .bind h.unary fun first => .loop _ fun (left, chained) => .bind (.eatBinding floor) fun binding? => ?_
  split
  · exact .pure _
  · exact .ite (.fail _ _) (.bind (h.binary _) fun right => .bind (.connect _ _ left right) fun _ => .pure _)

theorem stepPlace (span : Span) (e : Operand) (up before : Bool) : Reads (stepPlace span e up before) :=
  .bind (.placeOf e span) fun _ => .ite (.bind (.node _ _) fun _ => .pure _) (.fail _ _)

theorem indexAccess (h : lv.Reading) (span : Span) (place : Place Instr) : Reads (indexAccess lv span place) := by
  unfold Compiler.indexAccess
  split
  · exact .fail _ _
  · exact .bind (.integer h _) fun _ => .bind (.expect _ _) fun _ => .pure _

theorem fieldAccess (span : Span) (place : Place Instr) : Reads (fieldAccess span place) := by
  refine .bind .read fun ctx => ?_
  split
  · exact .fail _ _
  · refine .bind .expectIdent fun field => ?_
    split
    · exact .fail _ _
    · exact .pure _

theorem access (h : lv.Reading) (token : Token) (e : Operand) (place : Place Instr) :
    Reads (access lv token e place) := by
  have loaded (place : Place Instr) : Reads (do
      return (⟨← Compiler.node e.instr.span (.load place), place.ty, none⟩ : Operand)) :=
    .bind (.node _ _) fun _ => .pure _
  exact .bind .advance? fun _ => .ite (.bind (.indexAccess h token.span place) loaded)
    (.bind (.fieldAccess token.span place) loaded)

theorem accesses (h : lv.Reading) : Reads (accesses lv) := by
  refine .bind h.primary fun first => .loop _ fun e => .bind .peek? fun token? => ?_
  split
  · exact .pure _
  · split
    · exact .ite (.bind (.access h _ e _) fun _ => .pure _)
        (.ite (.bind .advance? fun _ => .bind (.stepPlace _ e _ _) fun _ => .pure _) (.pure _))
    · exact .ite (.fail _ _) (.ite (.fail _ _) (.pure _))

theorem unaryOperation (h : lv.Reading) (span : Span) (op : UnaryOp) : Reads (unaryOperation lv span op) :=
  .bind .advance? fun _ => .bind h.unary fun _ => .ite (.bind (.node _ _) fun _ => .pure _) (.fail _ _)

theorem unaryBody (h : lv.Reading) : Reads (unaryBody lv) := by
  refine .bind .peek? fun token? => ?_
  split
  · exact .unaryOperation h _ _
  · exact .unaryOperation h _ _
  · exact .unaryOperation h _ _
  · exact .bind .advance? fun _ => .bind h.unary fun _ => .ite (.pure _) (.fail _ _)
  · exact .bind .advance? fun _ => .bind h.unary fun e => .stepPlace _ e _ _
  · exact .bind .advance? fun _ => .bind h.unary fun e => .stepPlace _ e _ _
  · exact .accesses h

theorem literal (span : Span) (v : Variable) : Reads (literal span v) := .bind (.node _ _) fun _ => .pure _

theorem widenArgs (args : List Operand) (targets : List (Option Ty)) : Reads (widenArgs args targets) := by
  induction args generalizing targets with
  | nil => exact .pure _
  | cons arg args ih =>
    cases targets with
    | nil => exact .pure _
    | cons target? targets =>
      have rest (i : Instr) : Reads (do return i :: (← Compiler.widenArgs args targets)) :=
        .bind (ih targets) fun _ => .pure _
      cases target? with
      | some target => exact .bind (.widen arg target) rest
      | none => exact .bind (.pure arg.instr) rest

theorem call (h : lv.Reading) (name : Token) : Reads (call lv name) := by
  have resolved (args : List Operand) : Reads (do
      let r ← onScopes? fun s => s.resolveCall name.text name.span (args.map Operand.ty)
      let instrs ← Compiler.widenArgs args r.conversions
      return (⟨← Compiler.node name.span (.call r.callee instrs r.ret), r.ret, none⟩ : Operand)) :=
    .bind (.resolveCall ..) fun _ => .bind (.widenArgs ..) fun _ => .bind (.node _ _) fun _ => .pure _
  refine .bind .advance? fun _ => .bind (.eatIf _) fun closing? => ?_
  split
  · exact .bind (.pure []) resolved
  · exact .bind (.commaList (.value h)) fun _ => .bind (.expect _ _) fun _ => .bind (.pure _) resolved

theorem nameUse (name : Token) : Reads (nameUse name) := by
  refine .bind .get fun s => ?_
  split
  · exact .bind (.node _ _) fun _ => .pure _
  · refine .bind .read fun ctx => ?_
    split
    · exact .literal _ _
    · exact .fail _ _

theorem newObject (span : Span) : Reads (newObject span) := by
  refine .bind .expectIdent fun name => .bind .read fun ctx => ?_
  split
  · exact .fail _ _
  · rename_i cls _
    have made : Reads (do return (⟨← Compiler.node span (.new cls), .named cls.name, none⟩ : Operand)) :=
      .bind (.node _ _) fun _ => .pure _
    refine .bind (.eatIf _) fun opening => ?_
    split
    · exact .bind (.expect _ _) fun _ => made
    · exact made

theorem primaryBody (h : lv.Reading) : Reads (primaryBody lv) := by
  refine .bind .advance? fun token? => ?_
  cases token? with
  | none => exact .bind .read fun _ => .fail _ _
  | some token =>
    dsimp only
    split
    · split
      · exact .literal _ _
      · exact .fail _ _
    · split
      · exact .literal _ _
      · exact .fail _ _
    · exact .literal _ _
    · exact .literal _ _
    · exact .literal _ _
    · exact .bind (.node _ _) fun _ => .pure _
    · exact .newObject _
    · exact .bind h.expression fun _ => .bind (.expect _ _) fun _ => .pure _
    · exact .bind (.atOp _) fun _ => .ite (.call h token) (.nameUse token)
    · exact .fail _ _

theorem listInit (h : lv.Reading) (ty : Ty) : Reads (listInit lv ty) := by
  induction ty with
  | array elem ih =>
    unfold Compiler.listInit
    refine .bind (.expect _ _) fun opening => .bind (.eatIf _) fun closing? => ?_
    split
    · exact .bind (.pure []) fun _ => .node _ _
    · refine .bind (.commaList (.bind (.atOp _) fun _ => .ite ih ?_)) fun _ =>
        .bind (.expect _ _) fun _ => .bind (.pure _) fun _ => .node _ _
      exact .bind (.value h) fun e => .coerce e elem _
  | _ =>
    unfold Compiler.listInit
    exact .bind (.expect _ _) fun _ => .fail _ _

theorem expressionList (h : lv.Reading) (stop : Operator) : Reads (expressionList lv stop) :=
  .bind (.atOp _) fun _ => .ite (.pure _) (.commaList (.bind h.expression fun _ => .pure _))

theorem caseValue (h : lv.Reading) : Reads (caseValue lv) := by
  refine .bind (.value h) fun label => .ite (.fail _ _) ?_
  split
  · exact .pure _
  · exact .fail _ _

theorem dimensions (h : lv.Reading) (base : Ty) : Reads (dimensions lv base) := by
  refine .loop _ fun (ty, sizes, openEnded) => .bind (.eatIf _) fun opening? => ?_
  split
  · exact .pure _
  · refine .bind (.eatIf _) fun _ => .ite (.bind (.arrayOf _ _) fun _ => .pure _) (.ite (.fail _ _) ?_)
    exact .bind (.integer h _) fun _ => .bind (.expect _ _) fun _ => .bind (.arrayOf _ _) fun _ => .pure _

theorem initializer (h : lv.Reading) (ty : Ty) : Reads (initializer lv ty) := by
  refine .bind (.eatIf _) fun assign? => ?_
  split
  · exact .pure _
  · exact .bind (.atOp _) fun _ => .ite (.bind (.listInit h ty) fun _ => .pure _)
      (.bind (.value h) fun e => .bind (.coerce e ty _) fun _ => .pure _)

theorem parenCondition (h : lv.Reading) : Reads (parenCondition lv) :=
  .bind (.expect _ _) fun _ => .bind (.condition h) fun _ => .bind (.expect _ _) fun _ => .pure _

end Compiler.Reads

namespace Level

theorem reading_exhausted : exhausted.Reading := by
  have tooDeep {α : Type} : Compiler.Reads (do fail .tooDeep (← here) : Compiler α) := .bind .here fun _ => .fail _ _
  exact ⟨tooDeep, tooDeep, fun _ => tooDeep, tooDeep, tooDeep⟩

theorem Reading.outward {lv : Level} (h : lv.Reading) : lv.outward.Reading where
  expression := .inFrame false (.expressionBody h)
  ternary := .inFrame false (.ternaryBody h)
  binary floor := .inFrame false (.binaryBody h floor)
  unary := .inFrame false (.unaryBody h)
  primary := .inFrame false (.primaryBody h)

end Level
end Tickwise
