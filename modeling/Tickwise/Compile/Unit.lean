import Tickwise.Compile.Declaration
import Tickwise.Source.Lexer
set_option autoImplicit false

/-!
# Compiling a unit

A unit is outlined first: classes and function headers, up to the first error. Then the bodies are
compiled in order. `Program.ofTokens` stops at the first error and `Program.diagnoseTokens` answers
the first error of each function.
-/
namespace Tickwise.Compile

def classNames : List Token → List String
  | first :: second :: rest =>
    let names := classNames (second :: rest)
    if first.isWord .classWord ∧ second.kind = .identifier then second.text :: names else names
  | _ => []

def endSpan (tokens : List Token) : Span :=
  match tokens.getLast? with
  | some token => ⟨token.span.stop, token.span.stop⟩
  | none => Span.empty

def unitContext (env : Environment) (tokens : List Token) : Context where
  env := env
  classNames := classNames tokens
  classes := []
  endSpan := endSpan tokens
  turns := tokens.length + 1
  ret := .void
  breakables := []

/-- The declarations of a unit, up to the first error. -/
structure Outline where
  classes : List ClassLayout
  headers : List Header
  error : Option CompileError
  state : State

def Outline.extend (ctx : Context) (o : Outline) : Outline :=
  let ctx := { ctx with classes := o.classes }
  let next := if o.state.rest.head?.any (·.isWord .classWord) then
      let (cls?, state) := Compiler.classDeclaration ctx o.state
      { o with classes := o.classes ++ cls?.toList, state := state }
    else
      let (header?, state) := Compiler.functionHeader o.headers.length ctx o.state
      { o with headers := o.headers ++ header?.toList, state := state }
  let (error, scopes) := next.state.scopes.reset
  { next with error := error, state := { next.state with scopes := scopes } }

def Outline.complete (ctx : Context) : (turns : Nat) → Outline → Outline
  | 0, o => o
  | turns + 1, o =>
    if o.state.rest = [] ∨ o.error.isSome then o else Outline.complete ctx turns (o.extend ctx)

def outline (env : Environment) (tokens : List Token) : Outline :=
  Outline.complete (unitContext env tokens) tokens.length
    ⟨[], [], none, ⟨tokens, ScopeStack.start env.natives, 0⟩⟩

/-- Compiles the body of one function. An error is taken out of the scopes, which start over. -/
def compileBody (ctx : Context) (h : Header) (s : State) : Except (Option CompileError) Function × State :=
  match Compiler.functionBody h { ctx with ret := h.ret, breakables := [] } s with
  | (some f, s) => (.ok f, s)
  | (none, s) =>
    let (error, scopes) := s.scopes.reset
    (.error error, { s with scopes := scopes })

def compileBodies (ctx : Context) :
    List Header → State → Except (Option CompileError) (List Function × State)
  | [], s => .ok ([], s)
  | h :: headers, s =>
    match compileBody ctx h s with
    | (.error error, _) => .error error
    | (.ok f, s) => (compileBodies ctx headers s).map fun (functions, s) => (f :: functions, s)

def diagnoseBodies (ctx : Context) : List Header → State → List CompileError
  | [], _ => []
  | h :: headers, s =>
    match compileBody ctx h s with
    | (.error error, s) => error.toList ++ diagnoseBodies ctx headers s
    | (.ok _, s) => diagnoseBodies ctx headers s

def badToken? (tokens : List Token) : Option CompileError :=
  (tokens.find? Token.isError).map fun token => ⟨.badToken, token.span⟩

end Compile

namespace Program

open Compile

def ofTokens (id : String) (env : Environment) (tokens : List Token) : Except CompileError Program :=
  match badToken? tokens with
  | some error => .error error
  | none =>
    let o := outline env tokens
    match o.error with
    | some error => .error error
    | none =>
      let ctx := { unitContext env tokens with classes := o.classes }
      match compileBodies ctx o.headers o.state with
      | .ok (functions, s) => .ok ⟨id, functions, o.classes, s.nextNode, env⟩
      | .error (some error) => .error error
      | .error none => .ok ⟨id, [], o.classes, o.state.nextNode, env⟩

def ofSource (id : String) (env : Environment) (source : String) : Except CompileError Program :=
  ofTokens id env (Lexer.tokens source)

/-- The first error of the declarations and of each function body. -/
def diagnoseTokens (env : Environment) (tokens : List Token) : List CompileError :=
  match badToken? tokens with
  | some error => [error]
  | none =>
    let o := outline env tokens
    let ctx := { unitContext env tokens with classes := o.classes }
    o.error.toList ++ diagnoseBodies ctx o.headers o.state

def diagnose (env : Environment) (source : String) : List CompileError :=
  diagnoseTokens env (Lexer.tokens source)

end Program
end Tickwise
