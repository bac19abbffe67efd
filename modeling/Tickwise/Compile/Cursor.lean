import Tickwise.Environment
import Tickwise.Instr.Basic
import Tickwise.Scope.Stack
import Tickwise.Source.Token
set_option autoImplicit false

/-!
# Compile routines

A compile routine reads tokens from the front of the input and allocates instructions. A routine that
fails has recorded an error among the scopes; its state is kept, so that the next function can still
be compiled.
-/
namespace Tickwise.Compile

/-- Something that `break` can leave; `continue` needs a loop. -/
structure Breakable where
  label : Option String
  isLoop : Bool
  deriving DecidableEq, Inhabited

structure Context where
  env : Environment
  /-- Names that follow the word `class` anywhere in the unit. -/
  classNames : List String
  classes : List ClassLayout
  endSpan : Span
  /-- More than the number of tokens, and so of the turns of any loop that reads tokens. -/
  turns : Nat
  ret : Ty
  breakables : List Breakable

structure State where
  rest : List Token
  scopes : ScopeStack
  nextNode : NodeId

end Compile

abbrev Compiler := ReaderT Compile.Context (OptionT (StateM Compile.State))

namespace Compiler

open Compile

variable {α σ : Type}

def fail (cause : CompileError.Cause) (span : Span) : Compiler α := fun _ s =>
  (none, { s with scopes := s.scopes.recordError cause span })

def onScopes (f : ScopeStack → α × ScopeStack) : Compiler α :=
  modifyGet fun s => ((f s.scopes).1, { s with scopes := (f s.scopes).2 })

def onScopes? (f : ScopeStack → Option α × ScopeStack) : Compiler α := fun _ s =>
  ((f s.scopes).1, { s with scopes := (f s.scopes).2 })

def inFrame (isBlock : Bool) (routine : Compiler α) : Compiler α := fun ctx s =>
  let (result, s) := routine ctx { s with scopes := s.scopes.push isBlock }
  (result, { s with scopes := s.scopes.pop })

/-- Repeats a step while it answers a new state, for at most `turns` turns. -/
def iterate (step : σ → Compiler (σ ⊕ α)) : (turns : Nat) → σ → Compiler α
  | 0, _ => do fail .unexpectedEnd (← read).endSpan
  | turns + 1, state => do
    match ← step state with
    | .inl state => iterate step turns state
    | .inr result => return result

/-- Repeats a step, each turn of which but the last reads a token, until it answers a result. -/
def loop (start : σ) (step : σ → Compiler (σ ⊕ α)) : Compiler α := do
  iterate step (← read).turns start

def node (span : Span) (form : Form Instr) : Compiler Instr :=
  modifyGet fun s => (⟨s.nextNode, span, form⟩, { s with nextNode := s.nextNode + 1 })

def peek? : Compiler (Option Token) := return (← get).rest.head?

def peekSecond? : Compiler (Option Token) := return (← get).rest[1]?

def here : Compiler Span := return ((← get).rest.head?.map Token.span).getD (← read).endSpan

def advance? : Compiler (Option Token) :=
  modifyGet fun s => (s.rest.head?, { s with rest := s.rest.tail })

def atOp (op : Operator) : Compiler Bool := return (← get).rest.head?.any (·.isOp op)

def eatIf (p : Token → Bool) : Compiler (Option Token) := do
  if (← get).rest.head?.any p then advance? else return none

def eatOp (op : Operator) : Compiler (Option Token) := eatIf (·.isOp op)

def eatWord (word : Keyword) : Compiler (Option Token) := eatIf (·.isWord word)

/-- Fails at the next token; the end of the input is an error of its own. -/
def missing (cause : CompileError.Cause) : Compiler α := do
  fail (if (← get).rest = [] then .unexpectedEnd else cause) (← here)

def expect (p : Token → Bool) (cause : CompileError.Cause) : Compiler Token := do
  match ← eatIf p with
  | some token => return token
  | none => missing cause

def expectOp (op : Operator) (cause : CompileError.Cause) : Compiler Token := expect (·.isOp op) cause

def expectWord (word : Keyword) (cause : CompileError.Cause) : Compiler Token :=
  expect (·.isWord word) cause

def expectIdent : Compiler Token := expect (fun token => token.kind = .identifier) .expectedIdent

/-- Reads items with commas between them; there is at least one. -/
def commaList (item : Compiler α) : Compiler (List α) :=
  loop [] fun latestFirst => do
    let latestFirst := (← item) :: latestFirst
    if (← eatOp .comma).isSome then return .inl latestFirst else return .inr latestFirst.reverse

end Compiler
end Tickwise
