import Tickwise.Instr.Waiting
import Tickwise.Machine.Storage
import Tickwise.Program
set_option autoImplicit false

/-!
# Moves

What each form of instruction does at each position of its frame, one move at a time. All that is to
be remembered between two moves is in the frame, so an instruction can be suspended at any of them.
-/
namespace Tickwise

/-- What an instruction does at a position of its frame. An answer of `none` means that it goes on from
the position that its frame has then. -/
inductive Move where
  | run (child : Instr) (follow : Except Interrupt Variable → Exec (Option Variable))
  /-- Passes a statement or a loop turn, and goes to a position. -/
  | pass (span : Span) (state : Nat) (index : Int)
  | enter (f : Function)
  | invoke (id : NativeId) (f : NativeFn) (ret : Ty)
  | act (action : Exec (Option Variable))

namespace Exec

def undefinedValue (span : Span) (ty : Ty) : Exec Variable := do
  match ty with
  | .array _ =>
    let sizes ← check span ((← operands).mapM Slot.toInt)
    checkStorage span (·.allocArray ty sizes)
  | .named _ => return Slot.ofNull ty
  | _ => return Slot.fresh ty

def declare (v : Variable) : Exec Variable := do
  modify (·.declare v)
  void

/-- What follows the body of a loop or switch; `next` goes on with the construct. -/
def absorb (label : Option String) (isLoop : Bool) (next : Exec Unit) :
    Except Interrupt Variable → Exec (Option Variable)
  | .ok _ => goOn next
  | .error (.breakTo target) =>
    if target.isNone || target = label then finish void else throw (.breakTo target)
  | .error (.continueTo target) =>
    if isLoop && (target.isNone || target = label) then goOn next else throw (.continueTo target)
  | .error interrupt => throw interrupt

def chooseCase (cases : List Case) (value : Int32) : Option Case :=
  (cases.find? (·.value = some value)).or (cases.find? (·.value = none))

/-- A fault as the operands of a `try` keep it: its code, whether it is of a native, and its range. -/
def faultOperands (error : RuntimeError) : List Variable :=
  let kind : Int32 := match error.fault with
    | .native _ => 1
    | _ => 0
  [Slot.ofInt error.fault.code, Slot.ofInt kind, Slot.ofInt error.span.start.toInt32,
    Slot.ofInt error.span.stop.toInt32]

def operandsFault (vs : List Variable) : RuntimeError :=
  let entry (i : Nat) : Int32 :=
    match (vs[i]?).map Slot.toInt with
    | some (.ok n) => n
    | _ => 0
  let fault := if entry 1 = 1 then Fault.native (entry 0) else Fault.ofCode (entry 0)
  ⟨fault, ⟨(entry 2).toUInt32, (entry 3).toUInt32⟩⟩

def caughtCode? (vs : List Variable) : Option Int32 := vs.head?.bind fun v => v.toInt.toOption

/-- What follows the body of a `try`. A fault is kept among the operands, except for a stop. -/
def attempt : Except Interrupt Variable → Exec (Option Variable)
  | .ok _ => finish void
  | .error (.fault error) =>
    if error.fault = .stopped then throw (.fault error)
    else goOn do
      setOperands (faultOperands error)
      setPosition 1 0
  | .error interrupt => throw interrupt

def catches (span : Span) (filter : Variable) (code : Int32) : Exec Bool := do
  if filter.ty = .bool then check span filter.toBool
  else return (← check span filter.toInt) = code

def readInit (span : Span) (storage : Storage) : Exec Variable := do
  let v ← read span storage
  if v.isInit then return v.toTemp else faultAt span .uninitialized

def load (span : Span) (place : Place Instr) : Exec Variable := do
  readInit span (← locate span place false)

def operate (span : Span) (op : BinaryOp) (left right : Variable) (ty : Ty) : Exec Variable :=
  checkCrash span (fun h => (h.crash? ty left).or (if left.isInit then h.crash? ty right else none))
    (·.binary op left right ty)

def assign (span : Span) (place : Place Instr) (op : Option BinaryOp) (operandTy : Ty)
    (v : Variable) : Exec Variable := do
  let storage ← locate span place op.isNone
  match op with
  | none => store span storage v
  | some op =>
    let old ← read span storage
    store span storage (← operate span op old.toTemp v operandTy)

def step (span : Span) (place : Place Instr) (up before : Bool) : Exec Variable := do
  let storage ← locate span place false
  let old ← read span storage
  let new ← check span (old.step up)
  modify (·.write storage new)
  return if before then new.toTemp else old.toTemp

def binary (span : Span) (op : BinaryOp) (operandTy : Ty) (right : Variable) : Exec Variable := do
  match (← operands).head? with
  | some left => operate span op left right operandTy
  | none => faultAt span .uninitialized

def list (span : Span) (ty : Ty) : Exec Variable := do
  let vs ← operands
  checkStorage span fun h => .ok (h.newArray (ty.element?.getD .void) vs)

def result (span : Span) (ret : Ty) : Except Interrupt Variable → Exec (Option Variable)
  | .ok _ => finish (if ret = .void then void else faultAt span .missingReturn)
  | .error (.returned v) => finish (convert span v ret)
  | .error interrupt => throw interrupt

def leaf (i : Instr) : Exec Variable := do
  match i.form with
  | .literal v => return v
  | .new cls => checkStorage i.span fun h => .ok (h.newObject cls)
  | .breakTo label => throw (.breakTo label)
  | .continueTo label => throw (.continueTo label)
  | .ret none => throw (.returned Slot.ofVoid)
  | .load place => readInit i.span (.var place.root)
  | _ => void

end Exec

namespace Move

open Exec

def eval (child : Instr) (follow : Variable → Exec (Option Variable)) : Move :=
  .run child fun
    | .ok v => follow v
    | .error interrupt => throw interrupt

def test (cond : Instr) (follow : Bool → Exec (Option Variable)) : Move :=
  .eval cond fun v => do follow (← check cond.span v.toBool)

/-- Evaluates what is at an index of a list, and goes to the next index; behind the list, what follows
it. -/
def sequence (items : List Instr) (index : Int) (state : Nat) (afterwards : Exec (Option Variable)) :
    Move :=
  match itemAt? items index with
  | some item => .eval item fun _ => goOn (nextIndex state)
  | none => .act afterwards

/-- Evaluates what is at an index of a list into the operands; behind the list, what follows it. -/
def collect (es : List Instr) (index : Int) (afterwards : Exec (Option Variable)) : Move :=
  match itemAt? es index with
  | some e => .eval e fun v => goOn do
      pushOperand v
      nextIndex 0
  | none => .act afterwards

def ofBlock (body : List Instr) (f : Frame Variable) : Move :=
  match itemAt? body f.index with
  | none => .act (finish void)
  | some s =>
    if f.state = 0 then .pass s.span 1 f.index else .eval s fun _ => goOn (nextIndex 0)

def ofDeclare (span : Span) (var : VarId) (name : String) (ty : Ty) (dims : List Instr)
    (init : Option Instr) (f : Frame Variable) : Move :=
  if f.state = 0 then .collect dims f.index (goOn (setPosition 1 0))
  else match init with
    | some init => .eval init fun v => finish do
        let v ← convert span v ty
        declare (v.declaredAs name var)
    | none => .act (finish do declare ((← undefinedValue span ty).declaredAs name var))

def ofBranch (cond yes : Instr) (no : Option Instr) (f : Frame Variable) : Move :=
  match f.state with
  | 0 => .test cond fun b => goOn (setPosition (if b then 1 else 2) 0)
  | 1 => .eval yes fun _ => finish void
  | _ => match no with
    | some no => .eval no fun _ => finish void
    | none => .act (finish void)

/-- State 0 tests the condition, 1 takes a step and 2 executes the body. -/
def ofWhile (span : Span) (label : Option String) (cond body : Instr) (f : Frame Variable) : Move :=
  match f.state with
  | 0 => .test cond fun b => if b then goOn (setPosition 1 0) else finish void
  | 1 => .pass span 2 0
  | _ => .run body (absorb label true (setPosition 0 0))

/-- State 0 takes a step, 1 executes the body and 2 tests the condition. -/
def ofDoWhile (span : Span) (label : Option String) (body cond : Instr) (f : Frame Variable) : Move :=
  match f.state with
  | 0 => .pass span 1 0
  | 1 => .run body (absorb label true (setPosition 2 0))
  | _ => .test cond fun b => if b then goOn (setPosition 0 0) else finish void

/-- State 0 prepares, 1 tests the condition, 2 takes a step, 3 executes the body and 4 goes on to the
next turn. -/
def ofFor (span : Span) (label : Option String) (init : List Instr) (cond : Option Instr)
    (next : List Instr) (body : Instr) (f : Frame Variable) : Move :=
  match f.state with
  | 0 => .sequence init f.index 0 (goOn (setPosition 1 0))
  | 1 => match cond with
    | some cond => .test cond fun b => if b then goOn (setPosition 2 0) else finish void
    | none => .act (goOn (setPosition 2 0))
  | 2 => .pass span 3 0
  | 3 => .run body (absorb label true (setPosition 4 0))
  | _ => .sequence next f.index 4 (goOn (setPosition 1 0))

/-- State 0 evaluates the value, 1 is before a statement and 2 within it. -/
def ofSwitch (span : Span) (label : Option String) (value : Instr) (cases : List Case)
    (body : List Instr) (f : Frame Variable) : Move :=
  if f.state = 0 then
    .eval value fun v => do
      match chooseCase cases (← check span v.toInt) with
      | some c => goOn (setPosition 1 c.start)
      | none => finish void
  else match itemAt? body f.index with
    | none => .act (finish void)
    | some s =>
      if f.state = 1 then .pass s.span 2 f.index else .run s (absorb label false (nextIndex 1))

/-- State 0 executes the body, 1 evaluates the filter of a clause and 2 executes its handler. Without a
clause that catches it, the fault goes on. -/
def ofTry (body : Instr) (cs : List (Catch Instr)) (f : Frame Variable) : Move :=
  if f.state = 0 then .run body attempt
  else match caughtCode? f.operands with
    | none => .act (faultAt body.span .uninitialized)
    | some code => match itemAt? cs f.index with
      | none => .act (throw (.fault (operandsFault f.operands)))
      | some c =>
        if f.state = 2 then .eval c.handler fun _ => finish void
        else .eval c.filter fun v => do
          if ← catches c.filter.span v code then goOn (setPosition 2 f.index)
          else goOn (nextIndex 1)

def ofStore (span : Span) (place : Place Instr) (op : Option BinaryOp) (operandTy : Ty)
    (value : Instr) (f : Frame Variable) : Move :=
  if f.state = 0 then .collect place.indices f.index (goOn (setPosition 1 0))
  else .eval value fun v => finish (assign span place op operandTy v)

def ofBinary (span : Span) (op : BinaryOp) (operandTy : Ty) (left right : Instr)
    (f : Frame Variable) : Move :=
  if f.state = 0 then
    .eval left fun v => goOn do
      pushOperand v
      setPosition 1 0
  else .eval right fun v => finish (binary span op operandTy v)

/-- State 0 evaluates the left operand and 1 the right one, unless the left one decides. -/
def ofLogical (span : Span) (isAnd : Bool) (left right : Instr) (f : Frame Variable) : Move :=
  if f.state = 0 then
    .eval left fun v => do
      if (← check span v.toBool) == isAnd then goOn (setPosition 1 0)
      else finish (return Slot.ofBool (!isAnd))
  else .eval right fun v => finish do return Slot.ofBool (← check span v.toBool)

def ofTernary (cond yes no : Instr) (f : Frame Variable) : Move :=
  match f.state with
  | 0 => .test cond fun b => goOn (setPosition (if b then 1 else 2) 0)
  | 1 => .eval yes fun v => finish (return v)
  | _ => .eval no fun v => finish (return v)

/-- State 0 evaluates the arguments, 1 enters the function and 2 executes its body; a native is invoked
in either. -/
def ofCall (p : Program) (span : Span) (callee : Callee) (args : List Instr) (ret : Ty)
    (f : Frame Variable) : Move :=
  if f.state = 0 then .collect args f.index (goOn (setPosition 1 0))
  else match callee with
    | .native id => match p.env.natives.get? id with
      | none => .act (faultAt span (.native (-1)))
      | some g => .invoke id g ret
    | .user id => match p.function? id with
      | none => .act (faultAt span .notRestored)
      | some g => if f.state = 1 then .enter g else .run g.body (result span ret)

end Move

def Form.isScope {ι : Type} : Form ι → Bool
  | .block _ | .forLoop .. | .switch .. => true
  | _ => false

open Exec Move in
def Instr.move (p : Program) (i : Instr) (f : Frame Variable) : Move :=
  if i.form.isScope && !f.scope then .act (goOn openScope)
  else match i.form with
  | .block body => ofBlock body f
  | .declList items => .sequence items f.index 0 (finish void)
  | .declare var name ty dims init => ofDeclare i.span var name ty dims init f
  | .branch cond yes no => ofBranch cond yes no f
  | .whileLoop label cond body => ofWhile i.span label cond body f
  | .doWhile label body cond => ofDoWhile i.span label body cond f
  | .forLoop label init cond next body => ofFor i.span label init cond next body f
  | .switch label value cases body => ofSwitch i.span label value cases body f
  | .ret (some value) => .eval value fun v => throw (.returned v)
  | .tryCatch body cs => ofTry body cs f
  | .throw value => .eval value fun v => do faultAt i.span (.thrown (← check i.span v.toInt))
  | .load place => .collect place.indices f.index (finish (load i.span place))
  | .store place op operandTy value => ofStore i.span place op operandTy value f
  | .step place up before => .collect place.indices f.index (finish (step i.span place up before))
  | .binary op operandTy left right => ofBinary i.span op operandTy left right f
  | .logical isAnd left right => ofLogical i.span isAnd left right f
  | .unary op operand => .eval operand fun v => finish (check i.span (v.unary op))
  | .ternary cond yes no => ofTernary cond yes no f
  | .convert target operand => .eval operand fun v => finish (convert i.span v target)
  | .call callee args ret => ofCall p i.span callee args ret f
  | .list ty elements => .collect elements f.index (finish (list i.span ty))
  | .empty | .breakTo _ | .continueTo _ | .ret none | .literal _ | .new _ => .act (finish (leaf i))

end Tickwise
