import Tickwise.Proofs.Machine.Keeping
set_option autoImplicit false

/-!
# Moves that keep a discipline

Each move of an instruction keeps a discipline, if the discipline permits the conversions that the instruction
makes: in declarations, assignments, calls and where the code says so.
-/
namespace Tickwise

open Exec

namespace Discipline

/-- What a part of an instruction ends with may be converted as the instruction does it. `f` is the frame in
which the part was executed. -/
def Allows (A : Discipline) (i : Instr) (f : Frame Variable) (o : Except Interrupt Variable) (m : Machine) : Prop :=
  match i.form, o with
  | .declare _ _ ty _ _, .ok v => f.state ≠ 0 → A.Converts ty v
  | .store place op operandTy _, .ok v => f.state ≠ 0 → A.Assigns i.span place op operandTy m v
  | .convert target _, .ok v => A.Converts target v
  | .call _ _ ret, .error (.returned v) => f.state ≠ 0 → A.Converts ret v
  | _, _ => True

/-- There is room for the list that an instruction makes. -/
def Fills (A : Discipline) (i : Instr) (f : Frame Variable) : Prop :=
  ∀ ty es, i.form = .list ty es → itemAt? es f.index = none → A.Roomy f.operands.length

end Discipline

def Move.Keeps (A : Discipline) (i : Instr) (f : Frame Variable) : Move → Prop
  | .run _ follow => ∀ m o, A.Holds m → A.Ends A.Admits m.heap o → A.Allows i f o m →
      A.Keeps A.Maybe m.heap (follow o m)
  | .act action => ∀ m, A.Holds m → m.own = f → A.Fills i f → A.Keeps A.Maybe m.heap (action m)
  | _ => True

namespace Move.Keeps

open Discipline Discipline.Keeps

variable {A : Discipline} {i c : Instr} {f : Frame Variable} {span : Span}

theorem act {action : Exec (Option Variable)} (h : ∀ m, A.Holds m → A.Keeps A.Maybe m.heap (action m)) :
    (Move.act action).Keeps A i f :=
  fun m hm _ _ => h m hm

theorem eval {follow : Variable → Exec (Option Variable)}
    (h : ∀ m v, A.Holds m → A.Admits m.heap v → A.Allows i f (.ok v) m → A.Keeps A.Maybe m.heap (follow v m)) :
    (Move.eval c follow).Keeps A i f := by
  intro m o hm ends allows
  cases o with
  | ok v => exact h m v hm ends allows
  | error e => exact throw hm ends

theorem test {follow : Bool → Exec (Option Variable)}
    (h : ∀ m b, A.Holds m → A.Keeps A.Maybe m.heap (follow b m)) : (Move.test c follow).Keeps A i f :=
  .eval fun m _ hm _ _ => check hm fun b _ => h m b hm

theorem finishVoid : (Move.act (finish Exec.void)).Keeps A i f := .act fun _ hm => .finish (void hm)

theorem sequence {items : List Instr} {index : Int} {state : Nat} {afterwards : Exec (Option Variable)}
    (h : ∀ m, A.Holds m → A.Keeps A.Maybe m.heap (afterwards m)) :
    (Move.sequence items index state afterwards).Keeps A i f := by
  unfold Move.sequence
  cases itemAt? items index with
  | none => exact .act h
  | some c => exact .eval fun m v hm _ _ => .goOn (nextIndex hm state)

theorem collect {es : List Instr} {index : Int} {afterwards : Exec (Option Variable)}
    (h : itemAt? es index = none → ∀ m, A.Holds m → m.own = f → A.Fills i f → A.Keeps A.Maybe m.heap (afterwards m)) :
    (Move.collect es index afterwards).Keeps A i f := by
  unfold Move.collect
  cases found : itemAt? es index with
  | none => exact h found
  | some e =>
    exact .eval fun m v hm hv _ => .goOn ((pushOperand hm hv).bind fun m' _ _ _ holds _ => nextIndex holds 0)

theorem absorb {label : Option String} {isLoop : Bool} {next : Exec Unit}
    (h : ∀ m, A.Holds m → A.Keeps (fun _ _ => True) m.heap (next m)) :
    (Move.run c (absorb label isLoop next)).Keeps A i f := by
  intro m o hm ends _
  cases o with
  | ok v => exact .goOn (h m hm)
  | error e =>
    cases e with
    | breakTo target => exact ite (fun _ => .finish (void hm)) fun _ => throw hm trivial
    | continueTo target => exact ite (fun _ => .goOn (h m hm)) fun _ => throw hm trivial
    | _ => exact throw hm ends

theorem ofBlock (body : List Instr) : (Move.ofBlock body f).Keeps A i f := by
  unfold Move.ofBlock
  cases itemAt? body f.index with
  | none => exact .finishVoid
  | some s =>
    dsimp only
    split
    · trivial
    · exact .eval fun m v hm _ _ => .goOn (nextIndex hm 0)

theorem ofDeclare {var : VarId} {name : String} {ty : Ty} {dims : List Instr} {init : Option Instr}
    (form : i.form = .declare var name ty dims init) :
    (Move.ofDeclare span var name ty dims init f).Keeps A i f := by
  unfold Move.ofDeclare
  split
  · exact .collect fun _ m hm _ _ => .goOn (setPosition hm 1 0)
  · next behind =>
    cases init with
    | some e =>
      refine .eval fun m v hm hv allows => .finish ?_
      unfold Allows at allows
      rw [form] at allows
      have converts : A.Converts ty v := allows behind
      refine checkCrash hm fun w converted => declare hm (admits_declaredAs ?_ name var)
      exact admits_convert hv converts converted
    | none =>
      refine .act fun m hm => .finish ((undefinedValue hm span ty).bind fun m' v _ _ holds hv => ?_)
      exact declare holds (admits_declaredAs hv name var)

theorem ofBranch (cond yes : Instr) (no : Option Instr) : (Move.ofBranch cond yes no f).Keeps A i f := by
  unfold Move.ofBranch
  split
  · exact .test fun m b hm => .goOn (setPosition hm _ 0)
  · exact .eval fun m v hm _ _ => .finish (void hm)
  · cases no with
    | some no => exact .eval fun m v hm _ _ => .finish (void hm)
    | none => exact .finishVoid

theorem loopTest (state : Nat) :
    (Move.test c fun b => if b then goOn (setPosition state 0) else finish Exec.void).Keeps A i f :=
  .test fun _ _ hm => ite (fun _ => .goOn (setPosition hm state 0)) fun _ => .finish (void hm)

theorem ofWhile (label : Option String) (cond body : Instr) : (Move.ofWhile span label cond body f).Keeps A i f := by
  unfold Move.ofWhile
  split
  · exact .loopTest 1
  · trivial
  · exact .absorb fun m hm => setPosition hm 0 0

theorem ofDoWhile (label : Option String) (body cond : Instr) :
    (Move.ofDoWhile span label body cond f).Keeps A i f := by
  unfold Move.ofDoWhile
  split
  · trivial
  · exact .absorb fun m hm => setPosition hm 2 0
  · exact .loopTest 0

theorem ofFor (label : Option String) (init : List Instr) (cond : Option Instr) (next : List Instr)
    (body : Instr) : (Move.ofFor span label init cond next body f).Keeps A i f := by
  unfold Move.ofFor
  split
  · exact .sequence fun m hm => .goOn (setPosition hm 1 0)
  · cases cond with
    | some cond => exact .loopTest 2
    | none => exact .act fun m hm => .goOn (setPosition hm 2 0)
  · trivial
  · exact .absorb fun m hm => setPosition hm 4 0
  · exact .sequence fun m hm => .goOn (setPosition hm 1 0)

theorem ofSwitch (label : Option String) (value : Instr) (cases_ : List Case) (body : List Instr) :
    (Move.ofSwitch span label value cases_ body f).Keeps A i f := by
  unfold Move.ofSwitch
  split
  · refine .eval fun m v hm _ _ => check hm fun n _ => ?_
    cases chooseCase cases_ n with
    | some c => exact .goOn (setPosition hm 1 _)
    | none => exact .finish (void hm)
  · cases itemAt? body f.index with
    | none => exact .finishVoid
    | some s =>
      dsimp only
      split
      · trivial
      · exact .absorb fun m hm => nextIndex hm 1

theorem admits_faultOperands (A : Discipline) (h : Heap) (e : RuntimeError) : ∀ v ∈ faultOperands e, A.Admits h v := by
  simp only [faultOperands, List.forall_mem_cons]
  exact ⟨admits_temp h _ trivial, admits_temp h _ trivial, admits_temp h _ trivial, admits_temp h _ trivial, nofun⟩

theorem attempt : (Move.run c attempt).Keeps A i f := by
  intro m o hm ends _
  cases o with
  | ok v => exact .finish (void hm)
  | error e =>
    cases e with
    | fault error =>
      refine ite (fun _ => throw hm trivial) fun _ => .goOn ?_
      refine (setOperands hm (admits_faultOperands A m.heap error)).bind fun m' _ _ _ holds _ => ?_
      exact setPosition holds 1 0
    | _ => exact throw hm ends

theorem catches {m : Machine} {filter : Variable} {code : Int32} (hm : A.Holds m) :
    A.Keeps (fun _ _ => True) m.heap (catches span filter code m) := by
  unfold Exec.catches
  refine ite (fun _ => ?_) fun _ => check hm fun n _ => .pure hm trivial
  rw [← bind_pure (Exec.check span filter.toBool)]
  exact check hm fun b _ => .pure hm trivial

theorem ofTry (body : Instr) (cs : List (Catch Instr)) : (Move.ofTry body cs f).Keeps A i f := by
  unfold Move.ofTry
  split
  · exact .attempt
  · cases caughtCode? f.operands with
    | none => exact .act fun m hm => faultAt hm _ _
    | some code =>
      cases itemAt? cs f.index with
      | none => exact .act fun m hm => throw hm trivial
      | some c =>
        dsimp only
        split
        · exact .eval fun m v hm _ _ => .finish (void hm)
        · refine .eval fun m v hm _ _ => (catches hm).bind fun m' b _ _ holds _ => ?_
          exact ite (fun _ => .goOn (setPosition holds 2 _)) fun _ => .goOn (nextIndex holds 1)

theorem ofStore {place : Place Instr} {op : Option BinaryOp} {operandTy : Ty} {value : Instr}
    (form : i.form = .store place op operandTy value) :
    (Move.ofStore i.span place op operandTy value f).Keeps A i f := by
  unfold Move.ofStore
  split
  · exact .collect fun _ m hm _ _ => .goOn (setPosition hm 1 0)
  · next behind =>
    refine .eval fun m v hm hv allows => .finish (assign hm hv ?_)
    unfold Allows at allows
    rw [form] at allows
    exact allows behind

theorem ofBinary (op : BinaryOp) (operandTy : Ty) (left right : Instr) :
    (Move.ofBinary span op operandTy left right f).Keeps A i f := by
  unfold Move.ofBinary
  split
  · refine .eval fun m v hm hv _ => .goOn ((pushOperand hm hv).bind fun m' _ _ _ holds _ => ?_)
    exact setPosition holds 1 0
  · exact .eval fun m v hm _ _ => .finish (binary hm)

theorem ofLogical (isAnd : Bool) (left right : Instr) : (Move.ofLogical span isAnd left right f).Keeps A i f := by
  unfold Move.ofLogical
  split
  · refine .eval fun m v hm _ _ => check hm fun b _ => ite (fun _ => .goOn (setPosition hm 1 0)) fun _ => ?_
    exact .finish (.pure hm (admits_temp _ _ trivial))
  · exact .eval fun m v hm _ _ => .finish (check hm fun b _ => .pure hm (admits_temp _ _ trivial))

theorem ofTernary (cond yes no : Instr) : (Move.ofTernary cond yes no f).Keeps A i f := by
  unfold Move.ofTernary
  split
  · exact .test fun m b hm => .goOn (setPosition hm _ 0)
  · exact .eval fun m v hm hv _ => .finish (.pure hm hv)
  · exact .eval fun m v hm hv _ => .finish (.pure hm hv)

theorem result {ret : Ty} (allowed : ∀ v m, A.Allows i f (.error (.returned v)) m → A.Converts ret v) :
    (Move.run c (result span ret)).Keeps A i f := by
  intro m o hm ends allows
  cases o with
  | ok v => exact .finish (ite (fun _ => void hm) fun _ => faultAt hm span _)
  | error e =>
    cases e with
    | returned v => exact .finish (convert hm ends (allowed v m allows))
    | _ => exact throw hm ends

theorem ofCall {p : Program} {callee : Callee} {args : List Instr} {ret : Ty}
    (form : i.form = .call callee args ret) : (Move.ofCall p span callee args ret f).Keeps A i f := by
  unfold Move.ofCall
  split
  · exact .collect fun _ m hm _ _ => .goOn (setPosition hm 1 0)
  · next behind =>
    cases callee with
    | native id =>
      dsimp only
      cases p.env.natives.get? id with
      | none => exact .act fun m hm => faultAt hm span _
      | some g => trivial
    | user id =>
      dsimp only
      cases p.function? id with
      | none => exact .act fun m hm => faultAt hm span _
      | some g =>
        dsimp only
        split
        · trivial
        · refine .result fun v m allows => ?_
          unfold Allows at allows
          rw [form] at allows
          exact allows behind

end Move.Keeps

open Discipline Discipline.Keeps in
theorem Instr.move_keeps {A : Discipline} (p : Program) (i : Instr) (f : Frame Variable)
    (literal : ∀ h v, i.form = .literal v → A.Admits h v) : (i.move p f).Keeps A i f := by
  unfold Instr.move
  split
  · exact .act fun m hm => .goOn (openScope hm)
  · cases form : i.form with
    | block body => exact .ofBlock body
    | declList items => exact .sequence fun m hm => .finish (void hm)
    | declare var name ty dims init => exact .ofDeclare form
    | branch cond yes no => exact .ofBranch cond yes no
    | whileLoop label cond body => exact .ofWhile label cond body
    | doWhile label body cond => exact .ofDoWhile label body cond
    | forLoop label init cond next body => exact .ofFor label init cond next body
    | switch label value cases_ body => exact .ofSwitch label value cases_ body
    | ret value =>
      cases value with
      | some value => exact .eval fun m v hm hv _ => throw hm hv
      | none => exact .act fun m hm => .finish (leaf hm (literal m.heap))
    | tryCatch body cs => exact .ofTry body cs
    | throw value => exact .eval fun m v hm _ _ => check hm fun n _ => faultAt hm _ _
    | load place => exact .collect fun _ m hm _ _ => .finish (load hm)
    | store place op operandTy value => exact .ofStore form
    | step place up before => exact .collect fun _ m hm _ _ => .finish (step hm)
    | binary op operandTy left right => exact .ofBinary op operandTy left right
    | logical isAnd left right => exact .ofLogical isAnd left right
    | unary op operand =>
      refine .eval fun m v hm _ _ => .finish ?_
      rw [← bind_pure (Exec.check i.span (v.unary op))]
      exact check hm fun w computed => .pure hm (admits_unary computed)
    | ternary cond yes no => exact .ofTernary cond yes no
    | convert target operand =>
      refine .eval fun m v hm hv allows => .finish (convert hm hv ?_)
      unfold Allows at allows
      rw [form] at allows
      exact allows
    | call callee args ret => exact .ofCall form
    | list ty elements =>
      refine .collect fun ended m hm own fills => .finish (list hm ?_)
      rw [own]
      exact fills ty elements form ended
    | _ => exact .act fun m hm => .finish (leaf hm (literal m.heap))

end Tickwise
