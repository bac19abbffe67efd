import Tickwise.Compile.Statement
import Tickwise.Program
set_option autoImplicit false

/-!
# Classes and functions

The declarations of a unit. A function is read in two passes: first its header, which skips over the
body, and, when every header is known, the body.
-/
namespace Tickwise

/-- A function whose body is still to be compiled. -/
structure Header where
  id : FunctionId
  name : String
  span : Span
  params : List (Token × Ty)
  ret : Ty
  isExtern : Bool
  /-- The tokens from the opening brace of the body to the end of the unit. -/
  body : List Token

def Header.signature (h : Header) : Signature := ⟨h.id, h.name, h.params.map Prod.snd, h.ret⟩

def Program.maxFunctions : Nat := 65535

/-- The tokens behind the block that begins in front of `tokens`, inside `depth` open braces. -/
def skipBlock? : (depth : Nat) → (tokens : List Token) → Option (List Token)
  | _, [] => none
  | depth, token :: rest =>
    if token.isOp .leftBrace then skipBlock? (depth + 1) rest
    else if token.isOp .rightBrace then
      if depth ≤ 1 then some rest else skipBlock? (depth - 1) rest
    else skipBlock? depth rest

namespace Compiler

open Compile

def fieldLine (cls : ClassLayout) : Compiler ClassLayout := do
  let (_, ty) ← typeName false
  let cls ← loop cls fun cls => do
    let field ← expectIdent
    if (cls.fieldIndex? field.text).isSome then fail .duplicateSymbol field.span
    else
      let cls := { cls with fields := cls.fields ++ [⟨field.text, ty⟩] }
      if (← eatOp .comma).isSome then return .inl cls else return .inr cls
  let _ ← expectOp .semicolon .semicolon
  return cls

/-- A class, from the word `class`. A semicolon may follow it. -/
def classDeclaration : Compiler ClassLayout := do
  let _ ← advance?
  let name ← expectIdent
  if ((← read).class? name.text).isSome then fail .duplicateSymbol name.span
  else
    let _ ← expectOp .leftBrace .openBrace
    let cls ← loop ⟨name.text, []⟩ fun cls => do
      if (← eatOp .rightBrace).isSome then return .inr cls else return .inl (← fieldLine cls)
    let _ ← eatOp .semicolon
    return cls

def parameter : Compiler (Token × Ty) := do
  let (_, ty) ← typeName false
  return (← expectIdent, ty)

def parameters : Compiler (List (Token × Ty)) := do
  let _ ← expectOp .leftParen .openParen
  if (← eatOp .rightParen).isSome then return []
  else
    let params ← commaList parameter
    let _ ← expectOp .rightParen .closeParen
    return params

/-- Makes a function known to calls; one of the same name and parameter types is an error. -/
def addFunction (h : Header) : Compiler Unit := do
  if ← onScopes (·.addFunction h.signature) then return () else fail .duplicateSymbol h.span

def skipBody : Compiler (List Token) := do
  if ← atOp .leftBrace then
    let body := (← get).rest
    match skipBlock? 0 body with
    | some rest =>
      modify ({ · with rest := rest })
      return body
    | none => fail .unexpectedEnd (← read).endSpan
  else fail .openBrace (← here)

def functionHeader (id : FunctionId) : Compiler Header := do
  if id ≥ Program.maxFunctions then fail .unexpected (← here)
  else
    let isExtern := (← eatWord .externWord).isSome
    let (_, ret) ← typeName true
    let name ← expectIdent
    let h : Header := ⟨id, name.text, name.span, ← parameters, ret, isExtern, []⟩
    addFunction h
    return { h with body := ← skipBody }

def declareParameters : List (Token × Ty) → Compiler (List Parameter)
  | [] => return []
  | (name, ty) :: params => do
    let var ← declareVar name.text name.span ty
    return ⟨name.text, ty, var⟩ :: (← declareParameters params)

def functionBody (h : Header) : Compiler Function := do
  modify ({ · with rest := h.body })
  inFrame true do
    let params ← declareParameters h.params
    let body ← block (Level.ofRoom maxNesting) false
    return ⟨h.id, h.name, params, h.ret, body, h.isExtern, h.span⟩

end Compiler
end Tickwise
