import Tickwise.Source.Span
import Tickwise.Value.Operator
set_option autoImplicit false

/-!
# Instructions

The tree that a function body compiles to. The forms of an instruction are generic in its children,
so that what holds of the children can be said without recursion.
-/
namespace Tickwise

abbrev NodeId := Nat

abbrev FunctionId := Nat

inductive Callee where
  | user (id : FunctionId)
  | native (id : Nat)
  deriving DecidableEq, Inhabited

/-- One step from a variable toward the storage that is read or written. -/
inductive Access (ι : Type) where
  | index (at_ : ι) (elem : Ty)
  | field (position : Nat)

structure Place (ι : Type) where
  root : VarId
  name : String
  path : List (Access ι)
  ty : Ty

/-- A `case` label, or `default` without a value, and where in the body it starts. -/
structure Case where
  value : Option Int32
  start : Nat
  deriving DecidableEq, Inhabited

/-- A `catch` clause. An integer filter is compared with the code of the fault. -/
structure Catch (ι : Type) where
  filter : ι
  handler : ι

inductive Form (ι : Type) where
  | empty
  | block (body : List ι)
  | declList (items : List ι)
  | declare (var : VarId) (name : String) (ty : Ty) (dims : List ι) (init : Option ι)
  | branch (cond yes : ι) (no : Option ι)
  | whileLoop (label : Option String) (cond body : ι)
  | doWhile (label : Option String) (body cond : ι)
  | forLoop (label : Option String) (init : List ι) (cond : Option ι) (next : List ι) (body : ι)
  | switch (label : Option String) (value : ι) (cases : List Case) (body : List ι)
  | breakTo (label : Option String)
  | continueTo (label : Option String)
  | ret (value : Option ι)
  | tryCatch (body : ι) (catches : List (Catch ι))
  | throw (value : ι)
  | literal (value : Variable)
  | load (place : Place ι)
  /-- An assignment; a compound one computes with the operator in the operand type. -/
  | store (place : Place ι) (op : Option BinaryOp) (operandTy : Ty) (value : ι)
  | step (place : Place ι) (up before : Bool)
  | binary (op : BinaryOp) (operandTy : Ty) (left right : ι)
  | logical (isAnd : Bool) (left right : ι)
  | unary (op : UnaryOp) (operand : ι)
  | ternary (cond yes no : ι)
  | convert (target : Ty) (operand : ι)
  | call (callee : Callee) (args : List ι) (ret : Ty)
  | new (cls : ClassLayout)
  | list (ty : Ty) (elements : List ι)

/-- An instruction and the source range of the token that faults are reported at. -/
inductive Instr where
  | mk (id : NodeId) (span : Span) (form : Form Instr)

namespace Place

variable {ι : Type}

def indices (p : Place ι) : List ι :=
  p.path.filterMap fun a => match a with
    | .index e _ => some e
    | .field _ => none

end Place

namespace Form

variable {ι : Type}

def children : Form ι → List ι
  | empty | breakTo _ | continueTo _ | literal _ | new _ => []
  | block body => body
  | declList items => items
  | declare _ _ _ dims init => dims ++ init.toList
  | branch cond yes no => cond :: yes :: no.toList
  | whileLoop _ cond body => [cond, body]
  | doWhile _ body cond => [body, cond]
  | forLoop _ init cond next body => init ++ cond.toList ++ next ++ [body]
  | switch _ value _ body => value :: body
  | ret value => value.toList
  | tryCatch body catches => body :: catches.flatMap fun c => [c.filter, c.handler]
  | throw value => [value]
  | load place => place.indices
  | store place _ _ value => place.indices ++ [value]
  | step place _ _ => place.indices
  | binary _ _ left right => [left, right]
  | logical _ left right => [left, right]
  | unary _ operand => [operand]
  | ternary cond yes no => [cond, yes, no]
  | convert _ operand => [operand]
  | call _ args _ => args
  | list _ elements => elements

/-- Forms that execute without a frame of their own. -/
def isLeaf : Form ι → Bool
  | empty | breakTo _ | continueTo _ | literal _ | new _ | ret none => true
  | load place => place.path.isEmpty
  | _ => false

end Form

namespace Instr

def id : Instr → NodeId
  | mk id _ _ => id

def span : Instr → Span
  | mk _ span _ => span

def form : Instr → Form Instr
  | mk _ _ form => form

def isLeaf (i : Instr) : Bool := i.form.isLeaf

def children (i : Instr) : List Instr := i.form.children

instance : Inhabited Instr := ⟨mk 0 Span.empty .empty⟩

end Instr
end Tickwise
