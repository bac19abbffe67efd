import Tickwise.CompileError
import Tickwise.Scope.Overload
set_option autoImplicit false

/-!
# Scopes

The declarations in sight while a unit is compiled. Frames are opened for blocks and for
sub-expressions; a name may be declared once in a block frame and the other frames on top of it, and
shadows the declarations further out. The stack also keeps the first error that was recorded.
-/
namespace Tickwise

/-- One frame; its latest declaration comes first. The type and constant value of an expression can
be left in it. -/
structure ScopeFrame where
  isBlock : Bool
  vars : List Variable
  resultType : Option Ty
  resultValue : Option Variable
  deriving DecidableEq, Inhabited

structure ScopeStack where
  frames : List ScopeFrame
  error : Option CompileError
  functions : List Signature
  natives : NativeRegistry
  nextVar : VarId

namespace ScopeStack

def start (natives : NativeRegistry) : ScopeStack := ⟨[], none, [], natives, 1⟩

def push (s : ScopeStack) (isBlock : Bool) : ScopeStack :=
  { s with frames := ⟨isBlock, [], none, none⟩ :: s.frames }

def pop (s : ScopeStack) : ScopeStack := { s with frames := s.frames.tail }

def depth (s : ScopeStack) : Nat := s.frames.length

def freshVar (s : ScopeStack) : VarId × ScopeStack := (s.nextVar, { s with nextVar := s.nextVar + 1 })

def recordError (s : ScopeStack) (cause : CompileError.Cause) (span : Span) : ScopeStack :=
  match s.error with
  | none => { s with error := some ⟨cause, span⟩ }
  | some _ => s

/-- Takes the error out and closes every frame, so that compiling can start over. -/
def reset (s : ScopeStack) : Option CompileError × ScopeStack :=
  (s.error, { s with frames := [], error := none })

def innermostGroup : List ScopeFrame → List ScopeFrame
  | [] => []
  | f :: fs => if f.isBlock then [f] else f :: innermostGroup fs

def isDuplicate (s : ScopeStack) (name : String) : Bool :=
  (innermostGroup s.frames).any fun f => f.vars.any fun v => v.name = some name

/-- Declares a variable in the innermost frame. A duplicate is an error at `span`. -/
def declare (s : ScopeStack) (span : Span) (v : Variable) : Bool × ScopeStack :=
  if s.isDuplicate (v.name.getD "") then (false, s.recordError .duplicateSymbol span)
  else match s.frames with
    | [] => (false, s)
    | f :: fs => (true, { s with frames := { f with vars := v :: f.vars } :: fs })

def find? (s : ScopeStack) (name : String) : Option Variable :=
  s.frames.findSome? fun f => f.vars.find? fun v => v.name = some name

/-- Looks a name up; one that is not declared is an error at `span`. -/
def lookup (s : ScopeStack) (name : String) (span : Span) : Option Variable × ScopeStack :=
  match s.find? name with
  | some v => (some v, s)
  | none => (none, s.recordError .undefinedSymbol span)

def modifyTop (s : ScopeStack) (f : ScopeFrame → ScopeFrame) : ScopeStack :=
  match s.frames with
  | [] => s
  | top :: rest => { s with frames := f top :: rest }

def setResultType (s : ScopeStack) (ty : Ty) : ScopeStack :=
  s.modifyTop ({ · with resultType := some ty })

def resultType? (s : ScopeStack) : Option Ty := s.frames.head?.bind ScopeFrame.resultType

def takeResultType (s : ScopeStack) : Option Ty × ScopeStack :=
  (s.resultType?, s.modifyTop ({ · with resultType := none }))

def setResultValue (s : ScopeStack) (v : Variable) : ScopeStack :=
  s.modifyTop ({ · with resultValue := some v })

def takeResultValue (s : ScopeStack) : Option Variable × ScopeStack :=
  (s.frames.head?.bind ScopeFrame.resultValue, s.modifyTop ({ · with resultValue := none }))

/-- Makes a function visible to calls unless one of its name and parameter types is. -/
def addFunction (s : ScopeStack) (f : Signature) : Bool × ScopeStack :=
  if s.functions.any fun g => g.name = f.name ∧ g.params = f.params then (false, s)
  else (true, { s with functions := s.functions ++ [f] })

def candidates (s : ScopeStack) (name : String) : List Candidate :=
  (s.functions.filter (·.name = name)).map Candidate.ofSignature ++
    (s.natives.overloads name).map fun (id, f) => Candidate.ofNative id f

def resolveCall (s : ScopeStack) (name : String) (span : Span) (args : List Ty) :
    Option Resolved × ScopeStack :=
  match resolve (s.candidates name) args with
  | .resolved r => (some r, s)
  | .ambiguous => (none, s.recordError .ambiguousOverload span)
  | .noneFits => (none, s.recordError .noMatchingOverload span)
  | .unknownName => (none, s.recordError .undefinedFunction span)

end ScopeStack
end Tickwise
