import Tickwise.Proofs.Compile.Definitions
set_option autoImplicit false

/-!
# Errors

A routine fails exactly when it records an error, at a token or behind the last one. So a unit that is compiled
lacks no function, and no loop is cut short.
-/
namespace Tickwise

open Compile Compiler

/-- A compile routine, and how many frames are open at least when it begins: a variable is declared in the frame that
the body of its function has opened. The routines are those of any level of nesting. -/
inductive Routine : (frames : Nat) → {α : Type} → Compiler α → Prop where
  -- tokens and types
  | fail {α : Type} (cause : CompileError.Cause) (span : Span) : Routine 0 (fail cause span : Compiler α)
  | missing {α : Type} (cause : CompileError.Cause) : Routine 0 (missing cause : Compiler α)
  | expect (p : Token → Bool) (cause : CompileError.Cause) : Routine 0 (expect p cause)
  | arrayOf (ty : Ty) (span : Span) : Routine 0 (arrayOf ty span)
  | baseType (allowVoid : Bool) (token : Token) : Routine 0 (baseType allowVoid token)
  | typeName (allowVoid : Bool) : Routine 0 (typeName allowVoid)
  -- classes and headers
  | fieldLine (cls : ClassLayout) : Routine 0 (fieldLine cls)
  | classDeclaration : Routine 0 classDeclaration
  | parameter : Routine 0 parameter
  | parameters : Routine 0 parameters
  | addFunction (h : Header) : Routine 0 (addFunction h)
  | skipBody : Routine 0 skipBody
  | functionHeader (id : FunctionId) : Routine 0 (functionHeader id)
  | declareParameters (params : List (Token × Ty)) : Routine 1 (declareParameters params)
  -- operands
  | nonVoid (e : Operand) : Routine 0 (nonVoid e)
  | widen (e : Operand) (target : Ty) : Routine 0 (widen e target)
  | coerce (e : Operand) (target : Ty) (span : Span) : Routine 0 (coerce e target span)
  | operandType (op : BinaryOp) (left right : Ty) (span : Span) : Routine 0 (operandType op left right span)
  | combine (span : Span) (op : BinaryOp) (left right : Operand) : Routine 0 (combine span op left right)
  | combineLogical (span : Span) (isAnd : Bool) (left right : Operand) : Routine 0 (combineLogical span isAnd left right)
  | connect (span : Span) (c : Connective) (left right : Operand) : Routine 0 (connect span c left right)
  -- expressions
  | expression (room : Nat) : Routine 0 (Level.ofRoom room).expression
  | ternary (room : Nat) : Routine 0 (Level.ofRoom room).ternary
  | binary (room floor : Nat) : Routine 0 ((Level.ofRoom room).binary floor)
  | unary (room : Nat) : Routine 0 (Level.ofRoom room).unary
  | primary (room : Nat) : Routine 0 (Level.ofRoom room).primary
  | value (room : Nat) : Routine 0 (value (Level.ofRoom room))
  | condition (room : Nat) : Routine 0 (condition (Level.ofRoom room))
  | integer (room : Nat) (cause : CompileError.Cause) : Routine 0 (integer (Level.ofRoom room) cause)
  | placeOf (e : Operand) (span : Span) : Routine 0 (placeOf e span)
  | assignment (op : Operator) (span : Span) (place : Place Instr) (e : Operand) : Routine 0 (assignment op span place e)
  | expressionBody (room : Nat) : Routine 0 (expressionBody (Level.ofRoom room))
  | ternaryBody (room : Nat) : Routine 0 (ternaryBody (Level.ofRoom room))
  | binaryBody (room floor : Nat) : Routine 0 (binaryBody (Level.ofRoom room) floor)
  | stepPlace (span : Span) (e : Operand) (up before : Bool) : Routine 0 (stepPlace span e up before)
  | indexAccess (room : Nat) (span : Span) (place : Place Instr) : Routine 0 (indexAccess (Level.ofRoom room) span place)
  | fieldAccess (span : Span) (place : Place Instr) : Routine 0 (fieldAccess span place)
  | access (room : Nat) (token : Token) (e : Operand) (place : Place Instr) :
      Routine 0 (access (Level.ofRoom room) token e place)
  | accesses (room : Nat) : Routine 0 (accesses (Level.ofRoom room))
  | unaryOperation (room : Nat) (span : Span) (op : UnaryOp) : Routine 0 (unaryOperation (Level.ofRoom room) span op)
  | unaryBody (room : Nat) : Routine 0 (unaryBody (Level.ofRoom room))
  | literal (span : Span) (v : Variable) : Routine 0 (literal span v)
  | widenArgs (args : List Operand) (targets : List (Option Ty)) : Routine 0 (widenArgs args targets)
  | call (room : Nat) (name : Token) : Routine 0 (call (Level.ofRoom room) name)
  | nameUse (name : Token) : Routine 0 (nameUse name)
  | newObject (span : Span) : Routine 0 (newObject span)
  | primaryBody (room : Nat) : Routine 0 (primaryBody (Level.ofRoom room))
  | listInit (room : Nat) (ty : Ty) : Routine 0 (listInit (Level.ofRoom room) ty)
  -- statements
  | statement (room : Nat) : Routine 1 (Level.ofRoom room).statement
  | statementsToBrace (room : Nat) : Routine 1 (statementsToBrace (Level.ofRoom room))
  | block (room : Nat) (isScoped : Bool) : Routine 1 (block (Level.ofRoom room) isScoped)
  | dimensions (room : Nat) (base : Ty) : Routine 0 (dimensions (Level.ofRoom room) base)
  | initializer (room : Nat) (ty : Ty) : Routine 0 (initializer (Level.ofRoom room) ty)
  | declareVar (name : String) (span : Span) (ty : Ty) : Routine 1 (declareVar name span ty)
  | declarationItem (room : Nat) (base : Ty) : Routine 1 (declarationItem (Level.ofRoom room) base)
  | declaration (room : Nat) : Routine 1 (declaration (Level.ofRoom room))
  | governed (room : Nat) : Routine 1 (governed (Level.ofRoom room))
  | loopBody (room : Nat) (label : Option String) : Routine 1 (loopBody (Level.ofRoom room) label)
  | parenCondition (room : Nat) : Routine 0 (parenCondition (Level.ofRoom room))
  | ifStatement (room : Nat) (span : Span) : Routine 1 (ifStatement (Level.ofRoom room) span)
  | whileStatement (room : Nat) (label : Option String) (span : Span) :
      Routine 1 (whileStatement (Level.ofRoom room) label span)
  | doStatement (room : Nat) (label : Option String) (span : Span) : Routine 1 (doStatement (Level.ofRoom room) label span)
  | expressionList (room : Nat) (stop : Operator) : Routine 0 (expressionList (Level.ofRoom room) stop)
  | forStatement (room : Nat) (label : Option String) (span : Span) :
      Routine 1 (forStatement (Level.ofRoom room) label span)
  | caseValue (room : Nat) : Routine 0 (caseValue (Level.ofRoom room))
  | switchBody (room : Nat) : Routine 1 (switchBody (Level.ofRoom room))
  | switchStatement (room : Nat) (label : Option String) (span : Span) :
      Routine 1 (switchStatement (Level.ofRoom room) label span)
  | jump (isBreak : Bool) (span : Span) : Routine 0 (jump isBreak span)
  | returnStatement (room : Nat) (span : Span) : Routine 0 (returnStatement (Level.ofRoom room) span)
  | catchClause (room : Nat) (span : Span) : Routine 1 (catchClause (Level.ofRoom room) span)
  | tryStatement (room : Nat) (span : Span) : Routine 1 (tryStatement (Level.ofRoom room) span)
  | throwStatement (room : Nat) (span : Span) : Routine 0 (throwStatement (Level.ofRoom room) span)
  | breakable {room : Nat} {label : Option String} {token : Token} {c : Compiler Instr}
      (h : breakable? (Level.ofRoom room) label token = some c) : Routine 1 c
  | wordStatement {room : Nat} {token : Token} {c : Compiler Instr}
      (h : wordStatement? (Level.ofRoom room) token = some c) : Routine 1 c
  | labelled (room : Nat) (label : String) : Routine 1 (labelled (Level.ofRoom room) label)
  | statementBody (room : Nat) : Routine 1 (statementBody (Level.ofRoom room))

/-- What is known of a state with any frames and functions. -/
def Compile.anywhere (stop : Span) : Setting := ⟨⟨fun _ => True, stop⟩, 0, fun _ => True, fun _ => True⟩

namespace Builds

/-!
Routines that are given an operand or a place end in order whatever it is.
-/

variable {d k : Nat} {m : Next} {stop span : Span}

def Settled {α : Type} (stop : Span) (d k : Nat) (m : Next) (c : Compiler α) : Prop :=
  Builds (anywhere stop) d k m c fun _ _ _ => True

theorem settled {α : Type} {c : Compiler α} {Q : Nat → Next → α → Prop} (h : Builds (anywhere stop) d k m c Q) :
    Settled stop d k m c := h.imp fun _ _ _ _ _ => trivial

theorem Settled.bind {α β : Type} {c : Compiler α} {f : α → Compiler β} (first : Settled stop d k m c)
    (second : ∀ k' m' a, Settled stop d k' m' (f a)) : Settled stop d k m (c >>= f) :=
  Builds.bind first fun k' m' a _ _ => second k' m' a

theorem settled_nonVoid (e : Operand) : Settled stop d k m (Compiler.nonVoid e) :=
  .ite (fun _ => .fail _ trivial) fun _ => pure trivial

theorem settled_node (form : Form Instr) : Settled stop d k m (Compiler.node span form) := (node span form).settled

theorem settled_widen (e : Operand) (target : Ty) : Settled stop d k m (Compiler.widen e target) :=
  .ite (fun _ => settled_node _) fun _ => pure trivial

theorem settled_coerce (e : Operand) (target : Ty) (span : Span) : Settled stop d k m (Compiler.coerce e target span) :=
  (settled_nonVoid e).bind fun _ _ _ => .ite (fun _ => settled_widen e target) fun _ => .fail _ trivial

theorem settled_operandType (op : BinaryOp) (left right : Ty) (span : Span) :
    Settled stop d k m (Compiler.operandType op left right span) :=
  (operandType op left right trivial).settled

theorem settled_combine (span : Span) (op : BinaryOp) (left right : Operand) :
    Settled stop d k m (combine span op left right) :=
  (settled_operandType ..).bind fun _ _ ty => (settled_widen left ty).bind fun _ _ _ => (settled_widen right ty).bind
    fun _ _ _ => (settled_node _).bind fun _ _ _ => pure trivial

theorem settled_combineLogical (span : Span) (isAnd : Bool) (left right : Operand) :
    Settled stop d k m (combineLogical span isAnd left right) :=
  .ite (fun _ => .fail _ trivial) fun _ => .ite (fun _ => .fail _ trivial) fun _ =>
    (settled_node _).bind fun _ _ _ => pure trivial

theorem settled_placeOf (e : Operand) (span : Span) : Settled stop d k m (Compiler.placeOf e span) := by
  unfold Compiler.placeOf
  split
  · exact pure trivial
  · exact .fail _ trivial

theorem settled_assignment (op : Operator) (span : Span) (place : Place Instr) (e : Operand) :
    Settled stop d k m (Compiler.assignment op span place e) := by
  have stored {k : Nat} {m : Next} (form : Form Instr) : Settled stop d k m (do
      return (⟨← Compiler.node span form, place.ty, none⟩ : Operand)) :=
    (settled_node form).bind fun _ _ _ => pure trivial
  refine (settled_nonVoid e).bind fun _ _ _ => ?_
  split
  · exact (settled_coerce e place.ty span).bind fun _ _ v => .pureBind (stored _)
  · split
    · exact .failBind _ trivial
    · refine (settled_operandType ..).bind fun _ _ ty => ?_
      split
      · exact .pureBind (stored _)
      · exact .failBind _ trivial

theorem settled_stepPlace (span : Span) (e : Operand) (up before : Bool) :
    Settled stop d k m (Compiler.stepPlace span e up before) :=
  (settled_placeOf e span).bind fun _ _ _ => .ite (fun _ => (settled_node _).bind fun _ _ _ => pure trivial) fun _ =>
    .fail _ trivial

theorem settled_indexAccess (room : Nat) (span : Span) (place : Place Instr) :
    Settled stop d k m (Compiler.indexAccess (Level.ofRoom room) span place) := by
  unfold Compiler.indexAccess
  split
  · exact .fail _ trivial
  · exact (integer (Level.built_ofRoom _ room) _).settled.bind fun _ _ _ => (expect _ _).settled.bind fun _ _ _ => pure trivial

theorem settled_fieldAccess (span : Span) (place : Place Instr) :
    Settled stop d k m (Compiler.fieldAccess span place) := by
  refine .ask (fun _ _ => rfl) fun ctx _ => ?_
  split
  · exact .fail _ trivial
  · refine Settled.bind (expect _ _).settled fun _ _ name => ?_
    split
    · exact .fail _ trivial
    · exact pure trivial

theorem settled_access (room : Nat) (token : Token) (e : Operand) (place : Place Instr) :
    Settled stop d k m (Compiler.access (Level.ofRoom room) token e place) := by
  refine advance?.settled.bind fun _ _ _ => ?_
  have made {k : Nat} {m : Next} {c : Compiler (Place Instr)} (h : Settled stop d k m c) : Settled stop d k m (do
      let place ← c
      return (⟨← Compiler.node e.instr.span (.load place), place.ty, none⟩ : Operand)) :=
    h.bind fun _ _ _ => (settled_node _).bind fun _ _ _ => pure trivial
  split
  · exact made (settled_indexAccess room token.span place)
  · exact made (settled_fieldAccess token.span place)

theorem settled_widenArgs (args : List Operand) (targets : List (Option Ty)) :
    Settled stop d k m (Compiler.widenArgs args targets) := by
  induction args generalizing targets k m with
  | nil => exact pure trivial
  | cons arg args ih =>
    cases targets with
    | nil => exact pure trivial
    | cons target? targets =>
      have cont {k : Nat} {m : Next} (i : Instr) :
          Settled stop d k m (do return i :: (← Compiler.widenArgs args targets)) :=
        (ih targets).bind fun _ _ _ => pure trivial
      cases target? with
      | some target => exact (settled_widen arg target).bind fun _ _ i => cont i
      | none => exact .pureBind (cont arg.instr)

end Builds

theorem Routine.settled {frames : Nat} {α : Type} {c : Compiler α} (h : Routine frames c) (stop : Span) (d k : Nat)
    (m : Next) : Builds.Settled stop (d + frames) k m c := by
  have levels (room : Nat) : (Level.ofRoom room).Built (anywhere stop) := Level.built_ofRoom _ room
  cases h with
  | fail => exact .fail _ trivial
  | missing => exact .missing _
  | expect => exact (Builds.expect ..).settled
  | arrayOf => exact (Builds.arrayOf _ (.inl trivial)).settled
  | baseType => exact (Builds.baseType _ trivial).settled
  | typeName => exact (Builds.typeName _).settled
  | fieldLine => exact (Builds.fieldLine _).settled
  | classDeclaration => exact Builds.classDeclaration.settled
  | parameter => exact Builds.parameter.settled
  | parameters => exact Builds.parameters.settled
  | addFunction => exact (Builds.addFunction trivial trivial).settled
  | skipBody => exact Builds.skipBody.settled
  | functionHeader => exact (Builds.functionHeader _ fun _ => trivial).settled
  | declareParameters => exact (Builds.declareParameters fun _ _ => trivial).settled
  | nonVoid e => exact Builds.settled_nonVoid e
  | widen e target => exact Builds.settled_widen e target
  | coerce e target span => exact Builds.settled_coerce e target span
  | operandType => exact Builds.settled_operandType ..
  | combine => exact Builds.settled_combine ..
  | combineLogical => exact Builds.settled_combineLogical ..
  | connect span connective left right =>
    cases connective with
    | binary op => exact Builds.settled_combine ..
    | logical isAnd => exact Builds.settled_combineLogical ..
  | expression room => exact ((levels room).expression ..).settled
  | ternary room => exact ((levels room).ternary ..).settled
  | binary room => exact ((levels room).binary ..).settled
  | unary room => exact ((levels room).unary ..).settled
  | primary room => exact ((levels room).primary ..).settled
  | value room => exact (Builds.value (levels room)).settled
  | condition room => exact (Builds.condition (levels room)).settled
  | integer room => exact (Builds.integer (levels room) _).settled
  | placeOf => exact Builds.settled_placeOf ..
  | assignment => exact Builds.settled_assignment ..
  | expressionBody room => exact (Builds.expressionBody (levels room)).settled
  | ternaryBody room => exact (Builds.ternaryBody (levels room)).settled
  | binaryBody room => exact (Builds.binaryBody (levels room) _).settled
  | stepPlace => exact Builds.settled_stepPlace ..
  | indexAccess => exact Builds.settled_indexAccess ..
  | fieldAccess => exact Builds.settled_fieldAccess ..
  | access => exact Builds.settled_access ..
  | accesses room => exact (Builds.accesses (levels room)).settled
  | unaryOperation room => exact (Builds.unaryOperation (levels room) trivial _).settled
  | unaryBody room => exact (Builds.unaryBody (levels room)).settled
  | literal => exact (Builds.literal trivial _).settled
  | widenArgs => exact Builds.settled_widenArgs ..
  | call room => exact (Builds.call (levels room) trivial).settled
  | nameUse => exact (Builds.nameUse trivial).settled
  | newObject => exact (Builds.newObject trivial).settled
  | primaryBody room => exact (Builds.primaryBody (levels room)).settled
  | listInit room => exact (Builds.listInit (levels room) _).settled
  | statement room => exact ((levels room).statement ..).settled
  | statementsToBrace room => exact (Builds.statementsToBrace (levels room)).settled
  | block room => exact (Builds.block (levels room) _).settled
  | dimensions room => exact (Builds.dimensions (levels room) _).settled
  | initializer room => exact (Builds.initializer (levels room) _).settled
  | declareVar => exact (Builds.declareVar _ trivial _).settled
  | declarationItem room => exact (Builds.declarationItem (levels room) _).settled
  | declaration room => exact (Builds.declaration (levels room)).settled
  | governed room => exact (Builds.governed (levels room)).settled
  | loopBody room => exact (Builds.loopBody (levels room) _).settled
  | parenCondition room => exact (Builds.parenCondition (levels room)).settled
  | ifStatement room => exact (Builds.ifStatement (levels room) trivial).settled
  | whileStatement room => exact (Builds.whileStatement (levels room) _ trivial).settled
  | doStatement room => exact (Builds.doStatement (levels room) _ trivial).settled
  | expressionList room => exact (Builds.expressionList (levels room) _).settled
  | forStatement room => exact (Builds.forStatement (levels room) _ trivial).settled
  | caseValue room => exact (Builds.caseValue (levels room)).settled
  | switchBody room => exact (Builds.switchBody (levels room)).settled
  | switchStatement room => exact (Builds.switchStatement (levels room) _ trivial).settled
  | jump => exact (Builds.jump (m := m) _ trivial).settled
  | returnStatement room => exact (Builds.returnStatement (levels room) trivial).settled
  | catchClause room => exact (Builds.catchClause (levels room) trivial).settled
  | tryStatement room => exact (Builds.tryStatement (levels room) trivial).settled
  | throwStatement room => exact (Builds.throwStatement (levels room) trivial).settled
  | breakable h => exact (Builds.breakable? (levels _) trivial h).settled
  | wordStatement h => exact (Builds.wordStatement? (levels _) trivial h).settled
  | labelled room => exact (Builds.labelled (levels room) _).settled
  | statementBody room => exact (Builds.statementBody (levels room)).settled

/-- In this state the routine fails exactly when it records an error. With more turns than there are tokens no loop
is cut short: any number of them leads to the same. -/
structure Compile.Reports {α : Type} (c : Compiler α) (ctx : Context) (s : State) (tokens : Nat) : Prop where
  fails : (c ctx s).1 = none ↔ (c ctx s).2.scopes.error ≠ none
  steady : tokens < ctx.turns → ∀ turns, tokens < turns → c { ctx with turns := turns } s = c ctx s

theorem Compile.Ends.fails {α : Type} {K : Setting} {d k : Nat} {Q : Nat → Next → α → Prop} {r : Option α × State}
    (h : Ends K d k Q r) : r.1 = none ↔ r.2.scopes.error ≠ none := by
  obtain ⟨_ | a, s⟩ := r
  · obtain ⟨e, he, _⟩ := h
    simp [he]
  · obtain ⟨_, _, _, ready, _⟩ := h
    simp [ready.fine]

section Anywhere

variable {ctx : Context} {s : State}

theorem Compile.State.ready_anywhere {stop : Span} (fine : s.scopes.error = none) :
    s.Ready (anywhere stop) s.scopes.frames.length s.rest.length s.next :=
  ⟨rfl, fun _ _ => trivial, rfl, rfl, fine, rfl, Nat.zero_le _, fun _ _ _ _ => .inl trivial, fun _ _ => trivial⟩

theorem Routine.reports {frames : Nat} {α : Type} {c : Compiler α} (h : Routine frames c)
    (fine : s.scopes.error = none) (opened : frames ≤ s.scopes.frames.length) : Reports c ctx s s.rest.length := by
  have ready : s.Ready (anywhere ctx.endSpan) (s.scopes.frames.length - frames + frames) s.rest.length s.next := by
    rw [Nat.sub_add_cancel opened]
    exact State.ready_anywhere fine
  have builds := h.settled ctx.endSpan (s.scopes.frames.length - frames) s.rest.length s.next
  exact ⟨(builds.ends rfl ready).fails, fun hk _ ht => builds.steady rfl hk ht ready⟩

theorem reports_functionBody (h : Header) (fine : s.scopes.error = none) :
    Reports (functionBody h) ctx s h.body.length := by
  have placed : h.Placed (anywhere ctx.endSpan).span := ⟨trivial, fun _ _ => trivial, fun _ _ => trivial⟩
  have fine : { s with rest := h.body }.scopes.error = none := fine
  have ready : { s with rest := h.body }.Ready (anywhere ctx.endSpan) s.scopes.frames.length h.body.length s.next :=
    State.ready_anywhere fine
  exact ⟨(placed.ends_functionBody rfl ready).fails, fun hk _ ht => placed.functionBody_steady rfl ready hk ht⟩

end Anywhere

def Compile.placesOf (tokens : List Token) : Places := ⟨fun span => ∃ t ∈ tokens, span = t.span, endSpan tokens⟩

theorem sound_outline_placesOf (env : Environment) (tokens : List Token) :
    (outline env tokens).Sound (placesOf tokens) tokens.length := by
  have spans : ∀ t ∈ tokens, (placesOf tokens).span t.span := fun t ht => ⟨t, ht, rfl⟩
  exact (sound_outline spans rfl).1

theorem endSpan_bodies (env : Environment) (tokens : List Token) (classes : List ClassLayout) :
    { unitContext env tokens with classes := classes }.endSpan = (placesOf tokens).stop := rfl

theorem reports_badToken {tokens : List Token} {e : CompileError} (h : badToken? tokens = some e) :
    (placesOf tokens).Reports e.span := by
  obtain ⟨t, found, rfl⟩ := Option.map_eq_some_iff.1 h
  exact .inl ⟨t, List.mem_of_find?_eq_some found, rfl⟩

namespace Program

variable {env : Environment} {tokens : List Token} {e : CompileError}

theorem reports_of_diagnoseTokens (h : e ∈ diagnoseTokens env tokens) : (placesOf tokens).Reports e.span := by
  have sound := sound_outline_placesOf env tokens
  unfold diagnoseTokens at h
  split at h
  case h_1 bad => exact List.mem_singleton.1 h ▸ reports_badToken bad
  case h_2 =>
    rcases List.mem_append.1 h with h | h
    · exact sound.ended.placed e (Option.mem_toList.1 h)
    · exact placed_of_mem_diagnoseBodies sound.ended.idle (fun h mem => (sound.headers h mem).1) rfl e h

theorem reports_of_ofTokens {id : String} (h : ofTokens id env tokens = .error e) :
    (placesOf tokens).Reports e.span := by
  have sound := sound_outline_placesOf env tokens
  unfold ofTokens at h
  split at h
  case h_1 bad =>
    cases h
    exact reports_badToken bad
  case h_2 =>
    dsimp only at h
    split at h
    case h_1 error =>
      cases h
      exact sound.ended.placed e error
    case h_2 =>
      have waits : (outline env tokens).state.Waits fun _ => True := ⟨sound.ended.idle, fun _ _ => trivial⟩
      have bodies := allCompiled_compileBodies waits (fun h mem => (sound.headers h mem).1)
        (endSpan_bodies env tokens (outline env tokens).classes)
      split at h
      case h_1 => cases h
      case h_2 error =>
        cases h
        rw [error] at bodies
        obtain ⟨_, same, reported⟩ := bodies
        exact Option.some.inj same ▸ reported
      case h_3 => cases h

end Program

/-- With other bounds on the turns of a loop and on the declarations the unit is compiled the same way. -/
structure Compile.Steady (env : Environment) (tokens : List Token) (turns declarations : Nat) : Prop where
  outline : Outline.complete { unitContext env tokens with turns := turns } declarations (.start env tokens) =
    outline env tokens
  compile : ∀ classes, let ctx := { unitContext env tokens with classes := classes }
    compileBodies { ctx with turns := turns } (Compile.outline env tokens).headers (Compile.outline env tokens).state =
      compileBodies ctx (Compile.outline env tokens).headers (Compile.outline env tokens).state
  diagnose : ∀ classes, let ctx := { unitContext env tokens with classes := classes }
    diagnoseBodies { ctx with turns := turns } (Compile.outline env tokens).headers (Compile.outline env tokens).state =
      diagnoseBodies ctx (Compile.outline env tokens).headers (Compile.outline env tokens).state

theorem Compile.steady (env : Environment) (tokens : List Token) {turns declarations : Nat}
    (ht : tokens.length < turns) (hd : tokens.length ≤ declarations) : Steady env tokens turns declarations := by
  have sound := sound_outline_placesOf env tokens
  have placed (h : Header) (mem : h ∈ (Compile.outline env tokens).headers) := (sound.headers h mem).1
  have short (classes : List ClassLayout) (h : Header) (mem : h ∈ (Compile.outline env tokens).headers) :
      h.body.length < { unitContext env tokens with classes := classes }.turns ∧ h.body.length < turns :=
    ⟨Nat.lt_succ_of_le (sound.headers h mem).2, Nat.lt_of_le_of_lt (sound.headers h mem).2 ht⟩
  have stop := endSpan_bodies env tokens
  have waits : (Compile.outline env tokens).state.Waits fun _ => True := ⟨sound.ended.idle, fun _ _ => trivial⟩
  refine ⟨?_, fun classes => compileBodies_steady waits placed (stop classes) (short classes),
    fun classes => diagnoseBodies_steady sound.ended.idle placed (stop classes) (short classes)⟩
  have stop : (unitContext env tokens).endSpan = (placesOf tokens).stop := rfl
  have start := Outline.sound_start (P := placesOf tokens) env fun t ht => ⟨t, ht, rfl⟩
  exact start.complete_steady stop (Nat.lt_succ_self _) ht (Nat.le_refl _) hd

namespace Program

/-- A routine fails exactly when it records an error. So a program has all its functions, and each error has its
place in the source. -/
theorem errors_reported (env : Environment) (tokens : List Token) :
    (∀ {frames : Nat} {α : Type} {c : Compiler α}, Routine frames c → ∀ ctx s, s.scopes.error = none →
      frames ≤ s.scopes.frames.length → Reports c ctx s s.rest.length) ∧
    (∀ h ctx s, s.scopes.error = none → Reports (functionBody h) ctx s h.body.length) ∧
    (∀ {turns declarations}, tokens.length < turns → tokens.length ≤ declarations →
      Steady env tokens turns declarations) ∧
    (∀ {id p}, ofTokens id env tokens = .ok p →
      p.functions.map (fun f => (f.name, f.span)) = (definedNames 0 tokens).map Token.named) ∧
    ∀ id {e}, ofTokens id env tokens = .error e ∨ e ∈ diagnoseTokens env tokens →
      (∃ t ∈ tokens, e.span = t.span) ∨ e.span = endSpan tokens :=
  ⟨fun routine _ _ fine opened => routine.reports fine opened, fun h _ _ fine => reports_functionBody h fine,
    steady env tokens, names_ofTokens, fun _ _ h => h.elim reports_of_ofTokens reports_of_diagnoseTokens⟩

/-!
A name that is not declared is an error at the name.
-/
namespace Undeclared

def tokens : List Token :=
  [⟨.keyword .voidWord, "void", ⟨0, 4⟩⟩, ⟨.identifier, "f", ⟨5, 6⟩⟩, ⟨.operator .leftParen, "(", ⟨6, 7⟩⟩,
   ⟨.operator .rightParen, ")", ⟨7, 8⟩⟩, ⟨.operator .leftBrace, "\x7b", ⟨9, 10⟩⟩, ⟨.identifier, "n", ⟨11, 12⟩⟩,
   ⟨.operator .semicolon, ";", ⟨12, 13⟩⟩, ⟨.operator .rightBrace, "\x7d", ⟨14, 15⟩⟩]

def inside : State := ⟨tokens.drop 4, (ScopeStack.start .empty).push true, 0⟩

theorem errors_reported_undeclared : diagnoseTokens .empty tokens = [⟨.undefinedSymbol, ⟨11, 12⟩⟩] ∧
    ((∃ t ∈ tokens, ⟨11, 12⟩ = t.span) ∨ ⟨11, 12⟩ = endSpan tokens) ∧
      (block (Level.ofRoom maxNesting) false (unitContext .empty tokens) inside).2.scopes.error ≠ none := by
  obtain ⟨routines, _, _, _, places⟩ := errors_reported .empty tokens
  have diagnosed : diagnoseTokens .empty tokens = [⟨.undefinedSymbol, ⟨11, 12⟩⟩] := by decide +kernel
  have failed : (block (Level.ofRoom maxNesting) false (unitContext .empty tokens) inside).1.isNone = true := by
    decide +kernel
  have reports := routines (.block maxNesting false) (unitContext .empty tokens) inside rfl (Nat.le_refl 1)
  refine ⟨diagnosed, ?_, reports.fails.1 (Option.isNone_iff_eq_none.1 failed)⟩
  exact places "undeclared" (.inr (diagnosed ▸ List.mem_singleton_self _))

end Undeclared
end Program
end Tickwise
