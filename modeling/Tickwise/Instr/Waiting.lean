import Tickwise.Instr.Basic
set_option autoImplicit false

/-!
# What a frame waits for

A frame records its position as a state and an index. `Form.waiting` says for each position what
executes beneath the frame; a saved frame whose position it does not know is refused.
-/
namespace Tickwise

inductive Waiting (ι : Type) where
  | idle
  | child (c : ι)
  | callee (id : FunctionId)
  /-- The form has no such position. -/
  | invalid

/-- The entry of a list at an index that may be negative. -/
def itemAt? {α : Type} (items : List α) (index : Int) : Option α :=
  if index < 0 then none else items[index.toNat]?

namespace Waiting

variable {ι : Type}

def onEntry (items : List ι) (index : Int) : Waiting ι := ((itemAt? items index).map child).getD invalid

def beforeEntry (items : List ι) (index : Int) : Waiting ι :=
  if (itemAt? items index).isSome then idle else invalid

end Waiting

open Waiting in
def Form.waiting {ι : Type} (form : Form ι) (state : Nat) (index : Int) : Waiting ι :=
  match form, state with
  | .block body, 0 => beforeEntry body index
  | .block body, 1 => onEntry body index
  | .declList items, 0 => onEntry items index
  | .declare _ _ _ dims _, 0 => onEntry dims index
  | .declare _ _ _ _ (some init), 1 => child init
  | .branch cond _ _, 0 => child cond
  | .branch _ yes _, 1 => child yes
  | .branch _ _ (some no), 2 => child no
  | .whileLoop _ cond _, 0 => child cond
  | .whileLoop _ _ _, 1 => idle
  | .whileLoop _ _ body, 2 => child body
  | .doWhile _ _ _, 0 => idle
  | .doWhile _ body _, 1 => child body
  | .doWhile _ _ cond, 2 => child cond
  | .forLoop _ init _ _ _, 0 => onEntry init index
  | .forLoop _ _ (some cond) _ _, 1 => child cond
  | .forLoop _ _ _ _ _, 2 => idle
  | .forLoop _ _ _ _ body, 3 => child body
  | .forLoop _ _ _ next _, 4 => onEntry next index
  | .switch _ value _ _, 0 => child value
  | .switch _ _ _ body, 1 => beforeEntry body index
  | .switch _ _ _ body, 2 => onEntry body index
  | .tryCatch body _, 0 => child body
  | .tryCatch _ catches, 1 => ((itemAt? catches index).map (child ·.filter)).getD invalid
  | .tryCatch _ catches, 2 => ((itemAt? catches index).map (child ·.handler)).getD invalid
  | .ret (some value), 0 => child value
  | .throw value, 0 => child value
  | .unary _ operand, 0 => child operand
  | .convert _ operand, 0 => child operand
  | .load place, 0 => onEntry place.indices index
  | .step place _ _, 0 => onEntry place.indices index
  | .store place _ _ _, 0 => onEntry place.indices index
  | .store _ _ _ value, 1 => child value
  | .binary _ _ left _, 0 => child left
  | .binary _ _ _ right, 1 => child right
  | .logical _ left _, 0 => child left
  | .logical _ _ right, 1 => child right
  | .ternary cond _ _, 0 => child cond
  | .ternary _ yes _, 1 => child yes
  | .ternary _ _ no, 2 => child no
  | .call _ args _, 0 => onEntry args index
  | .call _ _ _, 1 => idle
  | .call (.user id) _ _, 2 => callee id
  | .call (.native _) _ _, 2 => idle
  | .list _ elements, 0 => onEntry elements index
  | _, _ => invalid

def Instr.waiting (i : Instr) (state : Nat) (index : Int) : Waiting Instr := i.form.waiting state index

end Tickwise
