import Tickwise.Compile.Operand
import Tickwise.Compile.TypeName
set_option autoImplicit false

/-!
# Expressions

The routines that compile expressions. Each calls the routines for its parts through a `Level`,
which offers them with one level of nesting less; so nesting is bounded and the recursion ends.
-/
namespace Tickwise

def maxNesting : Nat := 256

structure Level where
  /-- How much deeper the parts may be nested. -/
  room : Nat
  statement : Compiler Instr
  expression : Compiler Compile.Operand
  ternary : Compiler Compile.Operand
  /-- A chain of operators of more than the given precedence. -/
  binary : Nat → Compiler Compile.Operand
  unary : Compiler Compile.Operand
  primary : Compiler Compile.Operand

namespace Compiler

open Compile

def value (lv : Level) : Compiler Operand := do
  let operand ← lv.expression
  nonVoid operand
  return operand

def condition (lv : Level) : Compiler Instr := do
  let operand ← value lv
  if operand.ty = .bool then return operand.instr else fail .notBoolean operand.instr.span

def integer (lv : Level) (cause : CompileError.Cause) : Compiler Instr := do
  let operand ← value lv
  if operand.ty = .int then return operand.instr else fail cause operand.instr.span

def placeOf (operand : Operand) (span : Span) : Compiler (Place Instr) :=
  match operand.instr.form with
  | .load place => return place
  | _ => fail .badLeftHandSide span

def assignment (op : Operator) (span : Span) (place : Place Instr) (value : Operand) :
    Compiler Operand := do
  nonVoid value
  let form ← if op = .assign then do
      let value ← coerce value place.ty span
      pure (.store place none place.ty value)
    else match compoundOp? op with
      | none => fail .unexpected span
      | some op => do
        let operandTy ← operandType op place.ty value.ty span
        if place.ty.accepts operandTy then pure (.store place (some op) operandTy value.instr)
        else fail .typeMismatch span
  return ⟨← node span form, place.ty, none⟩

def expressionBody (lv : Level) : Compiler Operand := do
  let target ← lv.ternary
  match ← peek? with
  | some ⟨.operator op, _, span⟩ =>
    if isAssignment op then
      let _ ← advance?
      let place ← placeOf target span
      assignment op span place (← lv.expression)
    else return target
  | _ => return target

def ternaryBody (lv : Level) : Compiler Operand := do
  let cond ← lv.binary 0
  match ← eatOp .question with
  | none => return cond
  | some question =>
    if cond.ty ≠ .bool then fail .notBoolean cond.instr.span
    else
      let yes ← value lv
      let _ ← expectOp .colon .colon
      let no ← lv.ternary
      nonVoid no
      match branchType? yes.ty no.ty with
      | none => fail .typeMismatch question.span
      | some ty =>
        let y ← widen yes ty
        let n ← widen no ty
        return ⟨← node question.span (.ternary cond.instr y n), ty, none⟩

/-- Reads the next token if it is an operator that binds tighter than `floor`. -/
def eatBinding (floor : Nat) : Compiler (Option (Span × Binding)) := do
  match ← peek? with
  | some ⟨.operator op, _, span⟩ =>
    match binding? op with
    | some b =>
      if b.precedence > floor then
        let _ ← advance?
        return some (span, b)
      else return none
    | none => return none
  | _ => return none

/-- A chain of operators that bind tighter than `floor`. Each one nests its left operand one level
deeper. -/
def binaryBody (lv : Level) (floor : Nat) : Compiler Operand := do
  loop (← lv.unary, 0) fun (left, chained) => do
    match ← eatBinding floor with
    | none => return .inr left
    | some (span, b) =>
      let chained := chained + 1
      if chained > lv.room then fail .tooDeep span
      else
        let right ← lv.binary b.rightFloor
        return .inl (← connect span b.connective left right, chained)

def stepPlace (span : Span) (operand : Operand) (up before : Bool) : Compiler Operand := do
  let place ← placeOf operand span
  if place.ty.isNumeric then return ⟨← node span (.step place up before), place.ty, none⟩
  else fail .typeMismatch span

def indexAccess (lv : Level) (span : Span) (place : Place Instr) : Compiler (Place Instr) := do
  match place.ty.element? with
  | none => fail .notArray span
  | some elem =>
    let index ← integer lv .typeMismatch
    let _ ← expectOp .rightBracket .closeBracket
    return { place with path := place.path ++ [.index index elem], ty := elem }

def fieldAccess (span : Span) (place : Place Instr) : Compiler (Place Instr) := do
  match place.ty.className?.bind (← read).class? with
  | none => fail .notInstance span
  | some cls =>
    let field ← expectIdent
    match cls.fields.zipIdx.find? (·.1.name = field.text) with
    | none => fail .unknownField field.span
    | some (f, position) =>
      return { place with path := place.path ++ [.field position], ty := f.ty }

def access (lv : Level) (token : Token) (operand : Operand) (place : Place Instr) :
    Compiler Operand := do
  let _ ← advance?
  let place ← if token.isOp .leftBracket then indexAccess lv token.span place
    else fieldAccess token.span place
  return ⟨← node operand.instr.span (.load place), place.ty, none⟩

/-- An operand and what follows it: indexes and fields, and at most one increment or decrement. -/
def accesses (lv : Level) : Compiler Operand := do
  loop (← lv.primary) fun operand => do
    match ← peek? with
    | none => return .inr operand
    | some token =>
      match operand.instr.form with
      | .load place =>
        if token.isOp .leftBracket ∨ token.isOp .dot then
          return .inl (← access lv token operand place)
        else if token.isOp .increment ∨ token.isOp .decrement then
          let _ ← advance?
          return .inr (← stepPlace token.span operand (token.isOp .increment) false)
        else return .inr operand
      | _ =>
        if token.isOp .leftBracket then
          fail (if operand.ty.element?.isSome then .badLeftHandSide else .notArray) token.span
        else if token.isOp .dot then
          fail (if operand.ty.className?.isSome then .badLeftHandSide else .notInstance) token.span
        else return .inr operand

def unaryAdmits (op : UnaryOp) (ty : Ty) : Bool :=
  match op with
  | .neg => ty.isNumeric
  | .not => ty = .bool
  | .complement => ty = .int

def unaryOperation (lv : Level) (span : Span) (op : UnaryOp) : Compiler Operand := do
  let _ ← advance?
  let operand ← lv.unary
  if unaryAdmits op operand.ty then
    let instr ← node span (.unary op operand.instr)
    return ⟨instr, operand.ty, foldUnary? op operand.constant⟩
  else fail (if op = .not then .notBoolean else .typeMismatch) span

def unaryBody (lv : Level) : Compiler Operand := do
  match ← peek? with
  | some ⟨.operator .sub, _, span⟩ => unaryOperation lv span .neg
  | some ⟨.operator .not, _, span⟩ => unaryOperation lv span .not
  | some ⟨.operator .complement, _, span⟩ => unaryOperation lv span .complement
  | some ⟨.operator .add, _, span⟩ =>
    let _ ← advance?
    let operand ← lv.unary
    if operand.ty.isNumeric then return operand else fail .typeMismatch span
  | some ⟨.operator .increment, _, span⟩ =>
    let _ ← advance?
    stepPlace span (← lv.unary) true true
  | some ⟨.operator .decrement, _, span⟩ =>
    let _ ← advance?
    stepPlace span (← lv.unary) false true
  | _ => accesses lv

def literal (span : Span) (v : Variable) : Compiler Operand :=
  return ⟨← node span (.literal v), v.ty, some v⟩

def widenArgs : List Operand → List (Option Ty) → Compiler (List Instr)
  | arg :: args, target? :: targets => do
    let instr ← match target? with
      | some target => widen arg target
      | none => pure arg.instr
    return instr :: (← widenArgs args targets)
  | _, _ => return []

/-- A call, from its opening parenthesis; `name` is the token before it. -/
def call (lv : Level) (name : Token) : Compiler Operand := do
  let _ ← advance?
  let args ← if (← eatOp .rightParen).isSome then pure [] else do
    let args ← commaList (value lv)
    let _ ← expectOp .rightParen .closeParen
    pure args
  let resolved ← onScopes? fun s => s.resolveCall name.text name.span (args.map Operand.ty)
  let instrs ← widenArgs args resolved.conversions
  return ⟨← node name.span (.call resolved.callee instrs resolved.ret), resolved.ret, none⟩

/-- A name that is not called: a variable, or else a constant of the host. -/
def nameUse (name : Token) : Compiler Operand := do
  match (← get).scopes.find? name.text with
  | some v =>
    return ⟨← node name.span (.load ⟨v.id, name.text, [], v.ty⟩), v.ty, none⟩
  | none =>
    match (← read).env.constant? name.text with
    | some i => literal name.span { Slot.ofInt i with label := some name.text }
    | none => fail .undefinedSymbol name.span

def newObject (span : Span) : Compiler Operand := do
  let name ← expectIdent
  match (← read).class? name.text with
  | none => fail .unknownClass name.span
  | some cls =>
    if (← eatOp .leftParen).isSome then
      let _ ← expectOp .rightParen .closeParen
    return ⟨← node span (.new cls), .named cls.name, none⟩

def primaryBody (lv : Level) : Compiler Operand := do
  match ← advance? with
  | none => fail .unexpectedEnd (← read).endSpan
  | some token =>
    match token.kind with
    | .integer => match Integer.ofLiteral? token.text with
      | some i => literal token.span (Slot.ofInt i)
      | none => fail .badToken token.span
    | .real => match Binary32.ofText? token.text with
      | some x => literal token.span (Slot.ofFloat x)
      | none => fail .badToken token.span
    | .string => literal token.span (Slot.ofString token.text)
    | .keyword .trueWord => literal token.span (Slot.ofBool true)
    | .keyword .falseWord => literal token.span (Slot.ofBool false)
    | .keyword .nullWord =>
      return ⟨← node token.span (.literal (Slot.ofNull .null)), .null, none⟩
    | .keyword .newWord => newObject token.span
    | .operator .leftParen =>
      let inner ← lv.expression
      let _ ← expectOp .rightParen .closeParen
      return inner
    | .identifier => if ← atOp .leftParen then call lv token else nameUse token
    | _ => fail .expectedExpr token.span

/-- A braced list for an array of type `ty`. Lists within it are for its elements. -/
def listInit (lv : Level) : (ty : Ty) → Compiler Instr
  | .array elem => do
    let opening ← expectOp .leftBrace .openBrace
    let elements ← if (← eatOp .rightBrace).isSome then pure [] else do
      let elements ← commaList do
        if ← atOp .leftBrace then listInit lv elem
        else
          let operand ← value lv
          coerce operand elem operand.instr.span
      let _ ← expectOp .rightBrace .closeBrace
      pure elements
    node opening.span (.list (.array elem) elements)
  | _ => do
    let opening ← expectOp .leftBrace .openBrace
    fail .typeMismatch opening.span

end Compiler
end Tickwise
