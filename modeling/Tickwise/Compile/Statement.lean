import Tickwise.Compile.Expression
set_option autoImplicit false

/-!
# Statements

The routines that compile declarations, blocks and control flow, and the levels of nesting that tie
them to those of expressions.
-/
namespace Tickwise.Compiler

open Compile

def statementsToBrace (lv : Level) : Compiler (List Instr) :=
  loop [] fun latestFirst => do
    if (← eatOp .rightBrace).isSome then return .inr latestFirst.reverse
    else if (← peek?).isNone then fail .closeBrace (← read).endSpan
    else return .inl ((← lv.statement) :: latestFirst)

def block (lv : Level) (isScoped : Bool) : Compiler Instr := do
  let opening ← expectOp .leftBrace .openBrace
  let body ← if isScoped then inFrame true (statementsToBrace lv) else statementsToBrace lv
  node opening.span (.block body)

/-- Brackets behind a declared name: the type, and the sizes. A size may not follow empty brackets. -/
def dimensions (lv : Level) (base : Ty) : Compiler (Ty × List Instr) :=
  loop (base, [], false) fun (ty, sizes, openEnded) => do
    match ← eatOp .leftBracket with
    | none => return .inr (ty, sizes)
    | some opening =>
      if (← eatOp .rightBracket).isSome then return .inl (← arrayOf ty opening.span, sizes, true)
      else if openEnded then fail .badDimension opening.span
      else
        let size ← integer lv .badDimension
        let _ ← expectOp .rightBracket .closeBracket
        return .inl (← arrayOf ty opening.span, sizes ++ [size], false)

def initializer (lv : Level) (ty : Ty) : Compiler (Option Instr) := do
  match ← eatOp .assign with
  | none => return none
  | some assign =>
    if ← atOp .leftBrace then return some (← listInit lv ty)
    else return some (← coerce (← value lv) ty assign.span)

def declareVar (name : String) (span : Span) (ty : Ty) : Compiler VarId := do
  let id ← onScopes ScopeStack.freshVar
  onScopes? fun s =>
    let (declared, s) := s.declare span ((Slot.fresh ty).declaredAs name id)
    (if declared then some id else none, s)

def declarationItem (lv : Level) (base : Ty) : Compiler Instr := do
  let name ← expectIdent
  let (ty, sizes) ← dimensions lv base
  let init ← initializer lv ty
  let id ← declareVar name.text name.span ty
  node name.span (.declare id name.text ty sizes init)

def declaration (lv : Level) : Compiler Instr := do
  let (span, base) ← typeName false
  let items ← commaList (declarationItem lv base)
  node span (.declList items)

def governed (lv : Level) : Compiler Instr := do
  if ← atDeclaration then fail .unexpected (← here) else lv.statement

def loopBody (lv : Level) (label : Option String) : Compiler Instr :=
  withReader (fun ctx => { ctx with breakables := ⟨label, true⟩ :: ctx.breakables }) (governed lv)

def parenCondition (lv : Level) : Compiler Instr := do
  let _ ← expectOp .leftParen .openParen
  let cond ← condition lv
  let _ ← expectOp .rightParen .closeParen
  return cond

/-- What follows the word `if` at `span`; the same for the routines below. -/
def ifStatement (lv : Level) (span : Span) : Compiler Instr := do
  let cond ← parenCondition lv
  let yes ← governed lv
  let no ← if (← eatWord .elseWord).isSome then some <$> governed lv else pure none
  node span (.branch cond yes no)

def whileStatement (lv : Level) (label : Option String) (span : Span) : Compiler Instr := do
  let cond ← parenCondition lv
  let body ← loopBody lv label
  node span (.whileLoop label cond body)

def doStatement (lv : Level) (label : Option String) (span : Span) : Compiler Instr := do
  let body ← loopBody lv label
  let _ ← expectWord .whileWord .unexpected
  let cond ← parenCondition lv
  let _ ← expectOp .semicolon .semicolon
  node span (.doWhile label body cond)

def expressionList (lv : Level) (stop : Operator) : Compiler (List Instr) := do
  if ← atOp stop then return [] else commaList do return (← lv.expression).instr

def forStatement (lv : Level) (label : Option String) (span : Span) : Compiler Instr :=
  inFrame true do
    let _ ← expectOp .leftParen .openParen
    let init ← if ← atDeclaration then pure [← declaration lv] else expressionList lv .semicolon
    let _ ← expectOp .semicolon .semicolon
    let cond ← if ← atOp .semicolon then pure none else some <$> condition lv
    let _ ← expectOp .semicolon .semicolon
    let next ← expressionList lv .rightParen
    let _ ← expectOp .rightParen .closeParen
    let body ← loopBody lv label
    node span (.forLoop label init cond next body)

def caseValue (lv : Level) : Compiler Int32 := do
  let label ← value lv
  if label.ty ≠ .int then fail .typeMismatch label.instr.span
  else match label.constant.map Slot.toInt with
    | some (.ok i) => return i
    | _ => fail .notConstant label.instr.span

def switchBody (lv : Level) : Compiler (List Case × List Instr) :=
  loop ([], []) fun (cases, latestFirst) => do
    let start := latestFirst.length
    if (← eatOp .rightBrace).isSome then return .inr (cases, latestFirst.reverse)
    else if let some word := ← eatWord .caseWord then
      let i ← caseValue lv
      if cases.any (·.value = some i) then fail .duplicateCase word.span
      else
        let _ ← expectOp .colon .colon
        return .inl (cases ++ [⟨some i, start⟩], latestFirst)
    else if let some word := ← eatWord .defaultWord then
      if cases.any (·.value = none) then fail .duplicateCase word.span
      else
        let _ ← expectOp .colon .colon
        return .inl (cases ++ [⟨none, start⟩], latestFirst)
    else if (← peek?).isNone then fail .closeBrace (← read).endSpan
    else return .inl (cases, (← lv.statement) :: latestFirst)

def switchStatement (lv : Level) (label : Option String) (span : Span) : Compiler Instr := do
  let _ ← expectOp .leftParen .openParen
  let value ← integer lv .typeMismatch
  let _ ← expectOp .rightParen .closeParen
  let _ ← expectOp .leftBrace .openBrace
  let (cases, body) ← inFrame true <|
    withReader (fun ctx => { ctx with breakables := ⟨label, false⟩ :: ctx.breakables })
      (switchBody lv)
  node span (.switch label value cases body)

/-- What a jump would leave: with a label the innermost construct that has it, without one the
innermost loop, or for `break` the innermost loop or switch. -/
def jumpTarget? (breakables : List Breakable) (isBreak : Bool) (label : Option String) :
    Option Breakable :=
  match label with
  | some l => breakables.find? (·.label = some l)
  | none => breakables.find? fun b => isBreak || b.isLoop

def jump (isBreak : Bool) (span : Span) : Compiler Instr := do
  let label ← eatIf fun token => token.kind = .identifier
  match jumpTarget? (← read).breakables isBreak (label.map Token.text), label with
  | none, some l => fail .unknownLabel l.span
  | none, none => fail .outsideLoop span
  | some target, _ =>
    if isBreak ∨ target.isLoop then
      let _ ← expectOp .semicolon .semicolon
      let text := label.map Token.text
      node span (if isBreak then .breakTo text else .continueTo text)
    else fail .outsideLoop span

def returnStatement (lv : Level) (span : Span) : Compiler Instr := do
  let ret := (← read).ret
  let result ← if ← atOp .semicolon then
      if ret = .void then pure none else fail .missingReturnValue span
    else if ret = .void then fail .unexpectedReturnValue span
    else some <$> do coerce (← value lv) ret span
  let _ ← expectOp .semicolon .semicolon
  node span (.ret result)

def catchClause (lv : Level) (span : Span) : Compiler (Catch Instr) := do
  let _ ← expectOp .leftParen .openParen
  let filter ← value lv
  if filter.ty ≠ .int ∧ filter.ty ≠ .bool then fail .typeMismatch span
  else
    let _ ← expectOp .rightParen .closeParen
    let handler ← block lv true
    return ⟨filter.instr, handler⟩

def tryStatement (lv : Level) (span : Span) : Compiler Instr := do
  let body ← block lv true
  let catches ← loop [] fun latestFirst => do
    match ← eatWord .catchWord with
    | some word => return .inl ((← catchClause lv word.span) :: latestFirst)
    | none => return .inr latestFirst.reverse
  if catches.isEmpty then missing .unexpected else node span (.tryCatch body catches)

def throwStatement (lv : Level) (span : Span) : Compiler Instr := do
  let code ← integer lv .typeMismatch
  let _ ← expectOp .semicolon .semicolon
  node span (.throw code)

/-- A loop or switch from its first word, or `none` when the word begins neither. -/
def breakable? (lv : Level) (label : Option String) (token : Token) : Option (Compiler Instr) :=
  match token.kind with
  | .keyword .whileWord => some (whileStatement lv label token.span)
  | .keyword .doWord => some (doStatement lv label token.span)
  | .keyword .forWord => some (forStatement lv label token.span)
  | .keyword .switchWord => some (switchStatement lv label token.span)
  | _ => none

def wordStatement? (lv : Level) (token : Token) : Option (Compiler Instr) :=
  match token.kind with
  | .keyword .ifWord => some (ifStatement lv token.span)
  | .keyword .breakWord => some (jump true token.span)
  | .keyword .continueWord => some (jump false token.span)
  | .keyword .returnWord => some (returnStatement lv token.span)
  | .keyword .tryWord => some (tryStatement lv token.span)
  | .keyword .throwWord => some (throwStatement lv token.span)
  | _ => breakable? lv none token

def labelled (lv : Level) (label : String) : Compiler Instr := do
  match (← peek?).bind (breakable? lv (some label)) with
  | some statement =>
    let _ ← advance?
    statement
  | none => fail .unexpected (← here)

def statementBody (lv : Level) : Compiler Instr := do
  match ← peek? with
  | none => fail .unexpectedEnd (← read).endSpan
  | some token =>
    if token.isOp .leftBrace then block lv true
    else if token.isOp .semicolon then
      let _ ← advance?
      node token.span .empty
    else if let some statement := wordStatement? lv token then
      let _ ← advance?
      statement
    else if token.kind = .identifier ∧ (← peekSecond?).any (·.isOp .colon) then
      let _ ← advance?
      let _ ← advance?
      labelled lv token.text
    else
      let instr ← if ← atDeclaration then declaration lv else Operand.instr <$> lv.expression
      let _ ← expectOp .semicolon .semicolon
      return instr

end Compiler

namespace Level

open Compiler

/-- The routines when nesting has no room left: each fails at the next token. -/
def exhausted : Level :=
  let tooDeep {α : Type} : Compiler α := do fail .tooDeep (← here)
  { room := 0
    statement := tooDeep
    expression := tooDeep
    ternary := tooDeep
    binary := fun _ => tooDeep
    unary := tooDeep
    primary := tooDeep }

/-- The routines one level further out than `lv`. Expressions open a scope frame each. -/
def outward (lv : Level) : Level :=
  { room := lv.room + 1
    statement := statementBody lv
    expression := inFrame false (expressionBody lv)
    ternary := inFrame false (ternaryBody lv)
    binary := fun floor => inFrame false (binaryBody lv floor)
    unary := inFrame false (unaryBody lv)
    primary := inFrame false (primaryBody lv) }

def ofRoom : Nat → Level
  | 0 => exhausted
  | room + 1 => outward (ofRoom room)

end Level
end Tickwise
