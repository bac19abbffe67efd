import Tickwise.Proofs.Machine.Parallel
import Tickwise.Proofs.Machine.Positions
set_option autoImplicit false

/-!
# Executions on mirrored machines

An instruction executes alike on machines that are alike, if its literals refer to no storage and natives
depend on the content of what they are given.
-/
namespace Tickwise

/-- Its literals, and those of its parts, refer to no storage. -/
inductive Instr.Closed : Instr → Prop
  | intro {i : Instr} (literal : ∀ v, i.form = .literal v → v.value.storage? = none)
      (parts : ∀ c ∈ i.children, Closed c) : Closed i

theorem Instr.Closed.literal {i : Instr} {v : Variable} (h : i.Closed) (form : i.form = .literal v) :
    v.value.storage? = none := by
  cases h with
  | intro literal _ => exact literal v form

theorem Instr.Closed.part {i c : Instr} (h : i.Closed) (hc : c ∈ i.children) : c.Closed := by
  cases h with
  | intro _ parts => exact parts c hc

/-- The same call but for where the arguments are stored. -/
structure NativeCall.Alike (R : Ref → Ref → Prop) (c d : NativeCall) : Prop where
  args : c.args.Forall₂ (Slot.Alike R) d.args
  phase : c.phase = d.phase
  state : c.state = d.state
  heap : c.heap.Mirrors R d.heap
  journal : c.journal.Alike d.journal

inductive NativeOutcome.Alike (R : Ref → Ref → Prop) : NativeOutcome → NativeOutcome → Prop
  | done {v w : Variable} (h : v.Alike R w) : Alike R (.done v) (.done w)
  | suspend : Alike R .suspend .suspend
  | fault (code : Int32) : Alike R (.fault code) (.fault code)
  | crashed (crash : Crash) : Alike R (.crashed crash) (.crashed crash)

/-- The same reply but for where its value is stored. -/
structure NativeReply.Alike (R : Ref → Ref → Prop) (r s : NativeReply) : Prop where
  outcome : r.outcome.Alike R s.outcome
  state : r.state = s.state
  heap : r.heap.Mirrors R s.heap
  reports : r.reports = s.reports

/-- A native that depends on its arguments by content, on the phase, on the state of the call and on the
invocations made so far, and on nothing else: given what is alike it replies alike, and does the same to what
is stored. -/
def NativeFn.DependsOnContent (f : NativeFn) : Prop :=
  ∀ R c d, NativeCall.Alike R c d → ∃ R', R ≤ R' ∧ (f.handler c).Alike R' (f.handler d)

/-- The code of a program refers to no storage, and its natives depend on content. -/
structure Program.OnContent (p : Program) : Prop where
  functions : ∀ f ∈ p.functions, f.body.Closed
  natives : ∀ f ∈ p.env.natives.natives, f.DependsOnContent

namespace Exec.Alike

variable {R : Ref → Ref → Prop} {p : Program} {i : Instr} {room : Nat}

theorem leaf (closed : i.Closed) : Alike R Slot.Alike (Exec.leaf i) (Exec.leaf i) := by
  obtain ⟨literal, _⟩ := closed
  unfold Exec.leaf
  cases hf : i.form with
  | literal v =>
    have none := literal v hf
    exact .value (.refl fun r hr => by rw [none] at hr; cases hr)
  | new cls => exact .checkStorage i.span fun R' le h k mirrors => .ok (mirrors.newObject cls)
  | breakTo label => exact .interrupted (.breakTo label)
  | continueTo label => exact .interrupted (.continueTo label)
  | ret value =>
    cases value with
    | none => exact .interrupted (.returned (.temp .void))
    | some e => exact .void
  | load place => exact .readInit i.span (.var place.root)
  | _ => exact .void

theorem answered (span : Span) (ret : Ty) {o o' : NativeOutcome} (h : o.Alike R o') :
    Alike R Slot.Alike (Exec.answered span ret o) (Exec.answered span ret o') := by
  cases h with
  | done h => exact .convert span h ret
  | suspend =>
    refine .bind .own fun R₁ le₁ f g alike => ?_
    rw [alike.index]
    exact .bind (.setPosition 2 g.index) fun _ _ _ _ _ => .interrupted .suspended
  | fault code => exact .faultAt span _
  | crashed c => exact .interrupted (.crashed c)

theorem callNative (span : Span) (id : NativeId) {f : NativeFn} (ret : Ty) (h : f.DependsOnContent) :
    Alike R Slot.Alike (Exec.callNative span id f ret) (Exec.callNative span id f ret) := by
  intro R' le m n alike
  rw [callNative_apply, callNative_apply]
  have own := alike.own
  have phase : callPhase m.own.state m.stop = callPhase n.own.state n.stop := by
    rw [own.state, alike.stop]
  rw [phase]
  dsimp only
  generalize callPhase n.own.state n.stop = phase
  have call : NativeCall.Alike R' ⟨m.own.operands, phase, Int32.ofInt m.own.index, m.heap, m.journal⟩
      ⟨n.own.operands, phase, Int32.ofInt n.own.index, n.heap, n.journal⟩ :=
    ⟨own.operands, rfl, by rw [own.index], alike.heap, alike.journal⟩
  obtain ⟨R₁, le₁, reply⟩ := h R' _ _ call
  change (m.reply f phase).Alike R₁ (n.reply f phase) at reply
  have recorded : (m.record id phase (m.reply f phase)).Alike R₁ (n.record id phase (n.reply f phase)) := by
    have placed : (m.modifyFrame ({ · with index := (m.reply f phase).state.toInt })).Alike R'
        (n.modifyFrame ({ · with index := (n.reply f phase).state.toInt })) :=
      alike.modifyFrame fun f g slot => { slot with index := by rw [reply.state] }
    have stored := placed.withHeap le₁ reply.heap
    have invocation : Invocation.Alike
        ⟨id, m.own.operands, m.heap, phase, Int32.ofInt m.own.index, (m.reply f phase).state,
          (m.reply f phase).outcome⟩
        ⟨id, n.own.operands, n.heap, phase, Int32.ofInt n.own.index, (n.reply f phase).state,
          (n.reply f phase).outcome⟩ :=
      ⟨rfl, ⟨R', alike.heap.alike, own.operands⟩, rfl, by rw [own.index], reply.state⟩
    have reports : (m.reply f phase).reports.reverse ++ m.journal.reports =
        (n.reply f phase).reports.reverse ++ n.journal.reports := by
      rw [reply.reports, alike.journal.reports]
    exact { stored with journal := ⟨.cons invocation alike.journal.invocations, reports⟩ }
  have after : Alike R₁ Slot.Alike
      (if phase = .cancel then Exec.faultAt span .stopped
        else Exec.answered span ret (m.reply f phase).outcome)
      (if phase = .cancel then Exec.faultAt span .stopped
        else Exec.answered span ret (n.reply f phase).outcome) :=
    .ite (fun _ => .faultAt span _) fun _ => .answered span ret reply.outcome
  obtain ⟨R₂, le₂, rest⟩ := after R₁ (le_refl R₁) _ _ recorded
  exact ⟨R₂, le_trans le₁ le₂, rest⟩

theorem bindParams_alike {h k : Heap} (stores : h.Alike R k) (params : List Parameter) {vs ws : List Variable}
    (values : vs.Forall₂ (Slot.Alike R) ws) :
    Outcomes Eq (List.Forall₂ (Slot.Alike R)) (bindParams h params vs) (bindParams k params ws) := by
  induction params generalizing vs ws with
  | nil =>
    cases values <;> exact .ok .nil
  | cons q params ih =>
    cases values with
    | nil => exact .ok .nil
    | cons first rest =>
      have slot : ((Slot.fresh q.ty).declaredAs q.name q.var).Alike R
          ((Slot.fresh q.ty).declaredAs q.name q.var) := Slot.Alike.declaredAs (.fresh q.ty) q.name q.var
      refine (stores.assign slot first).bind fun v w new => (ih rest).bind fun vs ws more => ?_
      exact .ok (.cons new more)

theorem bindCrash?_alike {h k : Heap} (stores : h.Alike R k) (params : List Parameter) {vs ws : List Variable}
    (args : vs.Forall₂ (Slot.Alike R) ws) : bindCrash? h params vs = bindCrash? k params ws := by
  induction params generalizing vs ws with
  | nil => rfl
  | cons q params ih =>
    cases args with
    | nil => rfl
    | @cons v w _ _ first rest =>
      have ok : (h.convert v q.ty).isOk = (k.convert w q.ty).isOk := by
        have converted := stores.convert first q.ty
        generalize h.convert v q.ty = x at converted
        generalize k.convert w q.ty = y at converted
        cases converted <;> rfl
      unfold bindCrash?
      rw [Heap.crash?_alike stores first, ok, ih rest]

theorem placeCallee (span : Span) (node : NodeId) {vs ws : List Variable}
    (params : vs.Forall₂ (Slot.Alike R) ws) :
    Alike R Same (Exec.placeCallee span node vs) (Exec.placeCallee span node ws) := by
  intro R' le m n alike
  have placed := alike.placeCallee? node (params.imp fun _ _ slot => slot.grow le)
  unfold Exec.placeCallee
  generalize m.placeCallee? node vs = o at placed
  generalize n.placeCallee? node ws = o' at placed
  cases placed with
  | some placed => exact ⟨R', le_refl R', .ok rfl, placed⟩
  | none => exact ⟨R', le_refl R', .error (.fault _), alike⟩

theorem enterCallee (span : Span) (f : Function) (room : Nat) :
    Alike R Same (Exec.enterCallee span f room) (Exec.enterCallee span f room) := by
  refine .bind .operands fun R₁ le₁ vs ws values => .bind (.setOperands .nil) fun R₂ le₂ _ _ _ => ?_
  refine .bind (.checkCrash (A := fun R => List.Forall₂ (Slot.Alike R)) span (fun R' le h k mirrors =>
    bindCrash?_alike mirrors.alike f.params (values.imp fun _ _ slot => slot.grow (le_trans le₂ le))) fun R' le h k mirrors =>
    bindParams_alike mirrors.alike f.params
      (values.imp fun _ _ slot => slot.grow (le_trans le₂ le))) fun R₃ le₃ params params' bound => ?_
  refine .ite (fun _ => .faultAt span _) fun _ => ?_
  exact .bind (.placeCallee span f.body.id bound) fun _ _ _ _ _ => .setPosition 2 0

end Exec.Alike

/-- The same move, whose parts refer to no storage. -/
inductive Move.Alike (R : Ref → Ref → Prop) : Move → Move → Prop
  | run {c : Instr} (closed : c.Closed) {f g : Except Interrupt Variable → Exec (Option Variable)}
      (follows : Exec.Alike.Follows R f g) : Alike R (.run c f) (.run c g)
  | pass (span : Span) (state : Nat) (index : Int) : Alike R (.pass span state index) (.pass span state index)
  | enter (f : Function) : Alike R (.enter f) (.enter f)
  | invoke (id : NativeId) {f : NativeFn} (ret : Ty) (h : f.DependsOnContent) :
      Alike R (.invoke id f ret) (.invoke id f ret)
  | act {c d : Exec (Option Variable)} (h : Exec.Alike R Exec.Maybe c d) : Alike R (.act c) (.act d)

namespace Move.Alike

open Exec Exec.Alike

variable {R : Ref → Ref → Prop} {p : Program} {i c : Instr} {f g : Frame Variable}

theorem eval (closed : c.Closed) {next next' : Variable → Exec (Option Variable)}
    (follows : ∀ R', R ≤ R' → ∀ v w : Variable, v.Alike R' w → Exec.Alike R' Maybe (next v) (next' w)) :
    Move.Alike R (.eval c next) (.eval c next') := by
  refine .run closed fun R' le o o' ends => ?_
  cases ends with
  | ok h => exact follows R' le _ _ h
  | error h => exact .interrupted h

theorem test (closed : c.Closed) {next : Bool → Exec (Option Variable)}
    (follows : ∀ R', R ≤ R' → ∀ b, Exec.Alike R' Maybe (next b) (next b)) :
    Move.Alike R (.test c next) (.test c next) := by
  refine .eval closed fun R' le v w h => .bind (.checkSame c.span h.toBool) fun R₁ le₁ b _ same => ?_
  cases same
  exact follows R₁ (le_trans le le₁) b

theorem sequence {items : List Instr} (closed : ∀ c ∈ items, c.Closed) (index : Int) (state : Nat)
    {afterwards : Exec (Option Variable)} (h : Exec.Alike R Maybe afterwards afterwards) :
    Move.Alike R (.sequence items index state afterwards) (.sequence items index state afterwards) := by
  unfold Move.sequence
  cases found : itemAt? items index with
  | none => exact .act h
  | some c => exact .eval (closed c (mem_of_itemAt? found)) fun _ _ _ _ _ => .goOn (.nextIndex state)

theorem collect {es : List Instr} (closed : ∀ c ∈ es, c.Closed) (index : Int)
    {afterwards : Exec (Option Variable)} (h : Exec.Alike R Maybe afterwards afterwards) :
    Move.Alike R (.collect es index afterwards) (.collect es index afterwards) := by
  unfold Move.collect
  cases found : itemAt? es index with
  | none => exact .act h
  | some e =>
    refine .eval (closed e (mem_of_itemAt? found)) fun _ _ v w slot => .goOn ?_
    exact .bind (.pushOperand slot) fun _ _ _ _ _ => .nextIndex 0

theorem finishing (closed : c.Closed) {next : Variable → Exec Variable}
    (follows : ∀ R', R ≤ R' → ∀ v w : Variable, v.Alike R' w → Exec.Alike R' Slot.Alike (next v) (next w)) :
    Move.Alike R (.eval c fun v => finish (next v)) (.eval c fun v => finish (next v)) :=
  .eval closed fun R' le v w h => .finish (follows R' le v w h)

theorem ofBlock {body : List Instr} (closed : ∀ c ∈ body, c.Closed) (alike : f.Alike (Slot.Alike R) g) :
    Move.Alike R (ofBlock body f) (ofBlock body g) := by
  unfold Move.ofBlock
  rw [alike.index, alike.state]
  cases found : itemAt? body g.index with
  | none => exact .act (.finish .void)
  | some s =>
    dsimp only
    split
    · exact .pass ..
    · exact .eval (closed s (mem_of_itemAt? found)) fun _ _ _ _ _ => .goOn (.nextIndex 0)

theorem ofDeclare (span : Span) (var : VarId) (name : String) (ty : Ty) {dims : List Instr}
    {init : Option Instr} (sizes : ∀ c ∈ dims, c.Closed) (initial : ∀ c ∈ init, c.Closed)
    (alike : f.Alike (Slot.Alike R) g) :
    Move.Alike R (ofDeclare span var name ty dims init f) (ofDeclare span var name ty dims init g) := by
  unfold Move.ofDeclare
  rw [alike.index, alike.state]
  split
  · exact .collect sizes _ (.goOn (.setPosition 1 0))
  · cases init with
    | some e =>
      refine .finishing (initial e rfl) fun R₁ le₁ v w h => ?_
      exact .bind (.convert span h ty) fun R₂ le₂ v w slot => .declare (slot.declaredAs name var)
    | none =>
      refine .act (.finish ?_)
      exact .bind (.undefinedValue span ty) fun R₁ le₁ v w slot => .declare (slot.declaredAs name var)

theorem ofBranch {cond yes : Instr} {no : Option Instr} (hc : cond.Closed) (hy : yes.Closed)
    (hn : ∀ c ∈ no, c.Closed) (alike : f.Alike (Slot.Alike R) g) :
    Move.Alike R (ofBranch cond yes no f) (ofBranch cond yes no g) := by
  unfold Move.ofBranch
  rw [alike.state]
  generalize g.state = state
  match state with
  | 0 => exact .test hc fun _ _ b => .goOn (.setPosition _ _)
  | 1 => exact .eval hy fun _ _ _ _ _ => .finish .void
  | _ + 2 =>
    cases no with
    | some no => exact .eval (hn no rfl) fun _ _ _ _ _ => .finish .void
    | none => exact .act (.finish .void)

theorem loopTest (closed : c.Closed) (state : Nat) :
    Move.Alike R (.test c fun b => if b then goOn (setPosition state 0) else finish Exec.void)
      (.test c fun b => if b then goOn (setPosition state 0) else finish Exec.void) :=
  .test closed fun _ _ _ => .ite (fun _ => .goOn (.setPosition state 0)) fun _ => .finish .void

theorem ofWhile (span : Span) (label : Option String) {cond body : Instr} (hc : cond.Closed)
    (hb : body.Closed) (alike : f.Alike (Slot.Alike R) g) :
    Move.Alike R (ofWhile span label cond body f) (ofWhile span label cond body g) := by
  unfold Move.ofWhile
  rw [alike.state]
  generalize g.state = state
  match state with
  | 0 => exact .loopTest hc 1
  | 1 => exact .pass ..
  | _ + 2 => exact .run hb (.absorb label true fun _ _ => .setPosition 0 0)

theorem ofDoWhile (span : Span) (label : Option String) {body cond : Instr} (hb : body.Closed)
    (hc : cond.Closed) (alike : f.Alike (Slot.Alike R) g) :
    Move.Alike R (ofDoWhile span label body cond f) (ofDoWhile span label body cond g) := by
  unfold Move.ofDoWhile
  rw [alike.state]
  generalize g.state = state
  match state with
  | 0 => exact .pass ..
  | 1 => exact .run hb (.absorb label true fun _ _ => .setPosition 2 0)
  | _ + 2 => exact .loopTest hc 0

theorem ofFor (span : Span) (label : Option String) {init next : List Instr} {cond : Option Instr}
    {body : Instr} (hi : ∀ c ∈ init, c.Closed) (hc : ∀ c ∈ cond, c.Closed) (hn : ∀ c ∈ next, c.Closed)
    (hb : body.Closed) (alike : f.Alike (Slot.Alike R) g) :
    Move.Alike R (ofFor span label init cond next body f) (ofFor span label init cond next body g) := by
  unfold Move.ofFor
  rw [alike.state, alike.index]
  generalize g.state = state
  match state with
  | 0 => exact .sequence hi _ 0 (.goOn (.setPosition 1 0))
  | 1 =>
    cases cond with
    | some cond => exact .loopTest (hc cond rfl) 2
    | none => exact .act (.goOn (.setPosition 2 0))
  | 2 => exact .pass ..
  | 3 => exact .run hb (.absorb label true fun _ _ => .setPosition 4 0)
  | _ + 4 => exact .sequence hn _ 4 (.goOn (.setPosition 1 0))

theorem ofSwitch (span : Span) (label : Option String) {value : Instr} (cases_ : List Case)
    {body : List Instr} (hv : value.Closed) (hb : ∀ c ∈ body, c.Closed) (alike : f.Alike (Slot.Alike R) g) :
    Move.Alike R (ofSwitch span label value cases_ body f) (ofSwitch span label value cases_ body g) := by
  unfold Move.ofSwitch
  rw [alike.state, alike.index]
  split
  · refine .eval hv fun R₁ le₁ v w h => .bind (.checkSame span h.toInt) fun R₂ le₂ n _ same => ?_
    cases same
    cases chooseCase cases_ n with
    | some c => exact .goOn (.setPosition 1 _)
    | none => exact .finish .void
  · cases found : itemAt? body g.index with
    | none => exact .act (.finish .void)
    | some s =>
      dsimp only
      split
      · exact .pass ..
      · exact .run (hb s (mem_of_itemAt? found)) (.absorb label false fun _ _ => .nextIndex 1)

theorem ofTry {body : Instr} {cs : List (Catch Instr)} (hb : body.Closed)
    (hcs : ∀ c ∈ cs, c.filter.Closed ∧ c.handler.Closed) (alike : f.Alike (Slot.Alike R) g) :
    Move.Alike R (ofTry body cs f) (ofTry body cs g) := by
  unfold Move.ofTry
  rw [alike.state, alike.index, caughtCode?_alike alike.operands, operandsFault_alike alike.operands]
  split
  · exact .run hb .attempt
  · cases caughtCode? g.operands with
    | none => exact .act (.faultAt body.span _)
    | some code =>
      cases found : itemAt? cs g.index with
      | none => exact .act (.interrupted (.fault _))
      | some c =>
        obtain ⟨filter, handler⟩ := hcs c (mem_of_itemAt? found)
        dsimp only
        split
        · exact .eval handler fun _ _ _ _ _ => .finish .void
        · refine .eval filter fun R₁ le₁ v w h => .bind (.catches c.filter.span h code) ?_
          intro R₂ le₂ b _ same
          cases same
          exact .ite (fun _ => .goOn (.setPosition 2 _)) fun _ => .goOn (.nextIndex 1)

theorem ofStore (span : Span) {place : Place Instr} (op : Option BinaryOp) (operandTy : Ty) {value : Instr}
    (hi : ∀ c ∈ place.indices, c.Closed) (hv : value.Closed) (alike : f.Alike (Slot.Alike R) g) :
    Move.Alike R (ofStore span place op operandTy value f) (ofStore span place op operandTy value g) := by
  unfold Move.ofStore
  rw [alike.state, alike.index]
  split
  · exact .collect hi _ (.goOn (.setPosition 1 0))
  · exact .finishing hv fun _ _ _ _ h => .assign span place op operandTy h

theorem ofBinary (span : Span) (op : BinaryOp) (operandTy : Ty) {left right : Instr} (hl : left.Closed)
    (hr : right.Closed) (alike : f.Alike (Slot.Alike R) g) :
    Move.Alike R (ofBinary span op operandTy left right f) (ofBinary span op operandTy left right g) := by
  unfold Move.ofBinary
  rw [alike.state]
  split
  · refine .eval hl fun _ _ v w h => .goOn ?_
    exact .bind (.pushOperand h) fun _ _ _ _ _ => .setPosition 1 0
  · exact .finishing hr fun _ _ _ _ h => .binary span op operandTy h

theorem ofLogical (span : Span) (isAnd : Bool) {left right : Instr} (hl : left.Closed)
    (hr : right.Closed) (alike : f.Alike (Slot.Alike R) g) :
    Move.Alike R (ofLogical span isAnd left right f) (ofLogical span isAnd left right g) := by
  unfold Move.ofLogical
  rw [alike.state]
  split
  · refine .eval hl fun R₁ le₁ v w h => .bind (.checkSame span h.toBool) fun R₂ le₂ b _ same => ?_
    cases same
    exact .ite (fun _ => .goOn (.setPosition 1 0)) fun _ => .finish (.value (.temp (.bool _)))
  · refine .finishing hr fun R₁ le₁ v w h => .bind (.checkSame span h.toBool) fun R₂ le₂ b _ same => ?_
    cases same
    exact .value (.temp (.bool _))

theorem ofTernary {cond yes no : Instr} (hc : cond.Closed) (hy : yes.Closed) (hn : no.Closed)
    (alike : f.Alike (Slot.Alike R) g) :
    Move.Alike R (ofTernary cond yes no f) (ofTernary cond yes no g) := by
  unfold Move.ofTernary
  rw [alike.state]
  generalize g.state = state
  match state with
  | 0 => exact .test hc fun _ _ _ => .goOn (.setPosition _ _)
  | 1 => exact .finishing hy fun _ _ _ _ h => .value h
  | _ + 2 => exact .finishing hn fun _ _ _ _ h => .value h

theorem ofCall (hp : p.OnContent) (span : Span) (callee : Callee) {args : List Instr} (ret : Ty)
    (ha : ∀ c ∈ args, c.Closed) (alike : f.Alike (Slot.Alike R) g) :
    Move.Alike R (ofCall p span callee args ret f) (ofCall p span callee args ret g) := by
  unfold Move.ofCall
  rw [alike.state, alike.index]
  split
  · exact .collect ha _ (.goOn (.setPosition 1 0))
  · cases callee with
    | native id =>
      dsimp only
      cases found : p.env.natives.get? id with
      | none => exact .act (.faultAt span _)
      | some h => exact .invoke id ret (hp.natives h (List.mem_of_getElem? found))
    | user id =>
      dsimp only
      cases found : p.function? id with
      | none => exact .act (.faultAt span _)
      | some h =>
        dsimp only
        split
        · exact .enter h
        · exact .run (hp.functions h (List.mem_of_getElem? found)) (.result span ret)

end Move.Alike

open Exec.Alike in
theorem Instr.Closed.move {p : Program} {i : Instr} (closed : i.Closed) (hp : p.OnContent)
    {R : Ref → Ref → Prop} {f g : Frame Variable} (alike : f.Alike (Slot.Alike R) g) :
    Move.Alike R (i.move p f) (i.move p g) := by
  have parts {c : Instr} : c ∈ i.children → c.Closed := closed.part
  unfold Instr.move
  rw [alike.scope]
  split
  · exact .act (.goOn .openScope)
  · unfold Instr.children at parts
    cases hf : i.form with
      (rw [hf] at parts; simp only [Form.children, List.mem_cons, List.mem_append, List.mem_flatMap,
        Option.mem_toList, List.not_mem_nil, or_false] at parts)
    | block body => exact .ofBlock (fun _ => parts) alike
    | declList items => rw [alike.index]; exact .sequence (fun _ => parts) _ 0 (.finish .void)
    | declare var name ty dims init =>
      exact .ofDeclare i.span var name ty (fun _ h => parts (.inl h)) (fun _ h => parts (.inr h)) alike
    | branch cond yes no =>
      exact .ofBranch (parts (.inl rfl)) (parts (.inr (.inl rfl))) (fun _ h => parts (.inr (.inr h))) alike
    | whileLoop label cond body => exact .ofWhile i.span label (parts (.inl rfl)) (parts (.inr rfl)) alike
    | doWhile label body cond => exact .ofDoWhile i.span label (parts (.inl rfl)) (parts (.inr rfl)) alike
    | forLoop label init cond next body =>
      exact .ofFor i.span label (fun _ h => parts (.inl (.inl (.inl h))))
        (fun _ h => parts (.inl (.inl (.inr h)))) (fun _ h => parts (.inl (.inr h))) (parts (.inr rfl)) alike
    | switch label value cases_ body =>
      exact .ofSwitch i.span label cases_ (parts (.inl rfl)) (fun _ h => parts (.inr h)) alike
    | ret value =>
      cases value with
      | some value => exact .eval (parts rfl) fun _ _ _ _ h => .interrupted (.returned h)
      | none => exact .act (.finish (.leaf closed))
    | tryCatch body cs =>
      refine .ofTry (parts (.inl rfl)) (fun c hc => ?_) alike
      exact ⟨parts (.inr ⟨c, hc, .inl rfl⟩), parts (.inr ⟨c, hc, .inr rfl⟩)⟩
    | throw value =>
      refine .eval (parts rfl) fun _ _ v w h => .bind (.checkSame i.span h.toInt) fun _ _ n _ same => ?_
      cases same
      exact .faultAt i.span _
    | load place =>
      rw [alike.index]
      exact .collect (fun _ => parts) _ (.finish (.load i.span place))
    | store place op operandTy value =>
      exact .ofStore i.span op operandTy (fun _ h => parts (.inl h)) (parts (.inr rfl)) alike
    | step place up before =>
      rw [alike.index]
      exact .collect (fun _ => parts) _ (.finish (.step i.span place up before))
    | binary op operandTy left right =>
      exact .ofBinary i.span op operandTy (parts (.inl rfl)) (parts (.inr rfl)) alike
    | logical isAnd left right => exact .ofLogical i.span isAnd (parts (.inl rfl)) (parts (.inr rfl)) alike
    | unary op operand =>
      exact .finishing (parts rfl) fun R₁ _ _ _ h => .check i.span fun _ le => (h.grow le).unary op
    | ternary cond yes no =>
      exact .ofTernary (parts (.inl rfl)) (parts (.inr (.inl rfl))) (parts (.inr (.inr rfl))) alike
    | convert target operand => exact .finishing (parts rfl) fun _ _ _ _ h => .convert i.span h target
    | call callee args ret => exact .ofCall hp i.span callee ret (fun _ => parts) alike
    | list ty elements =>
      rw [alike.index]
      exact .collect (fun _ => parts) _ (.finish (.list i.span ty))
    | _ => exact .act (.finish (.leaf closed))

namespace Exec.Alike

variable {R : Ref → Ref → Prop} {p : Program} {i : Instr} {run : Instr → Exec Variable}

theorem turn (hp : p.OnContent) (deeper : ∀ c : Instr, c.Closed → ∀ R, Alike R Slot.Alike (run c) (run c))
    (room : Nat) (closed : i.Closed) : Alike R Maybe (Exec.turn run p room i) (Exec.turn run p room i) := by
  refine .bind .own fun R₁ le₁ f g alike => ?_
  have move := closed.move hp alike
  generalize i.move p f = a at move
  generalize i.move p g = b at move
  cases move with
  | @run c closed follow follow' follows =>
    exact .bind (.outcomeOf (deeper c closed R₁)) fun R₂ le₂ o o' ends => follows R₂ le₂ o o' ends
  | pass span state index =>
    exact .goOn (.bind (.spend span) fun _ _ _ _ _ => .setPosition state index)
  | enter h => exact .goOn (.enterCallee i.span h room)
  | invoke id ret depends => exact .finish (.callNative i.span id ret depends)
  | act h => exact h

theorem turns (hp : p.OnContent) (deeper : ∀ c : Instr, c.Closed → ∀ R, Alike R Slot.Alike (run c) (run c))
    (room : Nat) (closed : i.Closed) (fuel : Nat) :
    Alike R Slot.Alike (Exec.turns run p room i fuel) (Exec.turns run p room i fuel) := by
  induction fuel generalizing R with
  | zero => exact .interrupted .suspended
  | succ fuel ih =>
    refine .bind (.turn hp deeper room closed) fun R₁ le₁ o o' maybe => ?_
    cases maybe with
    | some h => exact .value h
    | none => exact ih

theorem exec (hp : p.OnContent) (room : Nat) (closed : i.Closed) :
    Alike R Slot.Alike (Exec.exec p room i) (Exec.exec p room i) := by
  induction room generalizing i R with
  | zero =>
    unfold Exec.exec
    split
    · exact .settle (.leaf closed)
    · exact .settle (.faultAt i.span _)
  | succ room ih =>
    unfold Exec.exec
    split
    · exact .settle (.leaf closed)
    · refine .inFrame i.id i.span (.withMachine fun R₁ le₁ m n alike => ?_)
      rw [alike.budget]
      exact .turns hp (fun c closed R => ih closed) room closed _

end Exec.Alike
end Tickwise
