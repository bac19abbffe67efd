import Tickwise.Proofs.Machine.Twins
set_option autoImplicit false

/-!
# Moves of twins

At one position twins make the same move: they execute parts that are twins, and what follows is similar. Only a call
differs, whose callee is no part of it.
-/
namespace Tickwise

open Exec

/-- The same move: of parts that are twins, or of similar computations. -/
inductive Move.Twin (a : Abode) (j k : NodeId) : Move → Move → Prop
  | run {c c' : Instr} {follow follow' : Except Interrupt Variable → Exec (Option Variable)} (twin : c.Twin c')
    (follows : ∀ o o', Agree o o' → Similar a j k (follow o) (follow' o')) :
    Twin a j k (.run c follow) (.run c' follow')
  | act {c d : Exec (Option Variable)} (same : Similar a j k c d) : Twin a j k (.act c) (.act d)

namespace Move.Twin

variable {a : Abode} {j k : NodeId} {c c' : Instr} {span span' : Span}

theorem eval (twin : c.Twin c') {next next' : Variable → Exec (Option Variable)}
    (h : ∀ v, Similar a j k (next v) (next' v)) : Move.Twin a j k (.eval c next) (.eval c' next') := by
  refine .run twin fun o o' agree => ?_
  cases agree with
  | ok same => exact same ▸ h _
  | error same => exact .throw same

theorem finishing (twin : c.Twin c') {next next' : Variable → Exec Variable}
    (h : ∀ v, Similar a j k (next v) (next' v)) :
    Move.Twin a j k (.eval c fun v => finish (next v)) (.eval c' fun v => finish (next' v)) :=
  .eval twin fun v => .finish (h v)

theorem test (twin : c.Twin c') {next : Bool → Exec (Option Variable)} (h : ∀ b, Similar a j k (next b) (next b)) :
    Move.Twin a j k (.test c next) (.test c' next) :=
  .eval twin fun _ => .bind (.check _) h

theorem collect {es es' : List Instr} (twins : es.Forall₂ Instr.Twin es') (index : Int)
    {afterwards afterwards' : Exec (Option Variable)} (h : Similar a j k afterwards afterwards') :
    Move.Twin a j k (.collect es index afterwards) (.collect es' index afterwards') := by
  have item := forall₂_itemAt? twins index
  unfold Move.collect
  generalize itemAt? es index = e at item
  generalize itemAt? es' index = e' at item
  cases item with
  | none => exact .act h
  | some twin => exact .eval twin fun v => .goOn (.bind (.pushOperand v) fun _ => .nextIndex 0)

theorem ofStore {place place' : Place Instr} (same : place.Twin Instr.Twin place')
    (spared : place.root = a.x → place.path ≠ []) (op : Option BinaryOp) (ty : Ty) (value : c.Twin c') (s : Spot) :
    Move.Twin a j k (.ofStore span place op ty c (s.frame j)) (.ofStore span' place' op ty c' (s.frame k)) := by
  change Move.Twin a j k (if s.state = 0 then _ else _) (if s.state = 0 then _ else _)
  split
  · exact .collect same.indices s.index (.goOn (.setPosition 1 0))
  · exact .finishing value (.assign same spared op ty)

theorem ofBinary {l l' r r' : Instr} (op : BinaryOp) (ty : Ty) (left : l.Twin l') (right : r.Twin r') (s : Spot) :
    Move.Twin a j k (.ofBinary span op ty l r (s.frame j)) (.ofBinary span' op ty l' r' (s.frame k)) := by
  change Move.Twin a j k (if s.state = 0 then _ else _) (if s.state = 0 then _ else _)
  split
  · exact .eval left fun v => .goOn (.bind (.pushOperand v) fun _ => .setPosition 1 0)
  · exact .finishing right (.binary op ty)

theorem ofLogical {l l' r r' : Instr} (isAnd : Bool) (left : l.Twin l') (right : r.Twin r') (s : Spot) :
    Move.Twin a j k (.ofLogical span isAnd l r (s.frame j)) (.ofLogical span' isAnd l' r' (s.frame k)) := by
  change Move.Twin a j k (if s.state = 0 then _ else _) (if s.state = 0 then _ else _)
  split
  · exact .eval left fun v => .bind (.check _) fun b => .ite (.goOn (.setPosition 1 0)) (.finish (.pure _))
  · exact .finishing right fun v => .bind (.check _) fun b => .pure _

theorem ofTernary {y y' n n' : Instr} (cond : c.Twin c') (yes : y.Twin y') (no : n.Twin n') (s : Spot) :
    Move.Twin a j k (.ofTernary c y n (s.frame j)) (.ofTernary c' y' n' (s.frame k)) := by
  obtain ⟨state, index, operands⟩ := s
  rcases state with _ | _ | state
  · exact .test cond fun b => .goOn (.setPosition _ 0)
  · exact .finishing yes .pure
  · exact .finishing no .pure

end Move.Twin

/-- A place that an instruction assigns to is another one than a variable that it spares. -/
theorem Instr.Spares.place {x : VarId} {i : Instr} {place : Place Instr} (spares : i.Spares x)
    (assigns : (∃ op ty value, i.form = .store place op ty value) ∨ ∃ up before, i.form = .step place up before) :
    place.root = x → place.path ≠ [] :=
  fun root whole => spares.own ⟨place, root, whole, assigns⟩

theorem Instr.Twin.moves {a : Abode} {i i' : Instr} (p : Program) (h : i.Twin i') (spares : i.Spares a.x)
    (other : ∀ callee args ret, i.form ≠ .call callee args ret) (j k : NodeId) (s : Spot) :
    Move.Twin a j k (i.move p (s.frame j)) (i'.move p (s.frame k)) := by
  obtain ⟨id, id', span, span', same⟩ := h
  cases same with
  | literal v => exact .act (.finish (.pure v))
  | new cls => exact .act (.finish (.checkStorage _))
  | load place => exact .collect place.indices s.index (.finish (.load place))
  | store place op ty value =>
    exact .ofStore place (spares.place (.inl ⟨_, _, _, rfl⟩)) op ty value s
  | step place up before =>
    exact .collect place.indices s.index (.finish (.step place (spares.place (.inr ⟨_, _, rfl⟩)) up before))
  | binary op ty left right => exact .ofBinary op ty left right s
  | logical isAnd left right => exact .ofLogical isAnd left right s
  | unary op operand => exact .finishing operand fun v => .check _
  | ternary cond yes no => exact .ofTernary cond yes no s
  | convert target operand => exact .finishing operand fun v => .checkCrash ..
  | call callee _ ret => exact absurd rfl (other _ _ _)

end Tickwise
