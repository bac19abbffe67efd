import Tickwise.Proofs.Compile.Tandem
import Tickwise.Proofs.Machine.Twins
set_option autoImplicit false

/-!
# Expressions in tandem

Two runs of a routine for expressions compile the tokens of one expression to twins, of the same type and with the same
constant value, or both reject it.
-/
namespace Tickwise

open Compile Compiler

inductive Compile.Operand.Twin : Operand → Operand → Prop
  | mk {i j : Instr} (ty : Ty) (constant : Option Variable) (same : i.Twin j) : Twin ⟨i, ty, constant⟩ ⟨j, ty, constant⟩

/-- A routine that closes what it opens. -/
def Compiler.Encloses {α : Type} (K : Tails) (c : Compiler α) (A : α → α → Prop) : Prop :=
  ∀ {depth : Nat} {ts us : List Token}, Enclosed K depth ts us → Tandem ts us c c (Inside (Enclosed K depth) A)

structure Level.Encloses (K : Tails) (lv : Level) : Prop where
  expression : Compiler.Encloses K lv.expression Operand.Twin
  ternary : Compiler.Encloses K lv.ternary Operand.Twin
  binary : ∀ floor, Compiler.Encloses K (lv.binary floor) Operand.Twin
  unary : Compiler.Encloses K lv.unary Operand.Twin
  primary : Compiler.Encloses K lv.primary Operand.Twin

namespace Tandem

variable {α β β' : Type} {K : Tails} {ts us : List Token} {depth : Nat} {lv : Level} {span span' : Span}
    {e e' : Operand}
  {p q : Place Instr} {Q : List Token → List Token → β → β' → Prop}

theorem node {form form' : Form Instr} (h : Enclosed K depth ts us) (same : form.Twin Instr.Twin form') :
    Tandem ts us (node span form) (node span' form') (Inside (Enclosed K depth) Instr.Twin) :=
  ⟨fun {_ _ s t} abreast => .some ⟨rfl, Nat.le_refl _⟩ ⟨rfl, Nat.le_refl _⟩
    ⟨abreast.left ▸ abreast.right ▸ h, .mk s.nextNode t.nextNode span span' same⟩⟩

theorem operand {form form' : Form Instr} (h : Enclosed K depth ts us) (same : form.Twin Instr.Twin form') (ty : Ty)
    (constant : Option Variable) :
    Tandem ts us (do return ⟨← Compiler.node span form, ty, constant⟩)
      (do return ⟨← Compiler.node span' form', ty, constant⟩) (Inside (Enclosed K depth) Operand.Twin) :=
  (node h same).next fun h same => pure ⟨h, .mk ty constant same⟩

theorem load (h : Enclosed K depth ts us) (same : p.Twin Instr.Twin q) :
    Tandem ts us (do return ⟨← Compiler.node span (.load p), p.ty, none⟩)
      (do return ⟨← Compiler.node span' (.load q), q.ty, none⟩) (Inside (Enclosed K depth) Operand.Twin) := by
  obtain ⟨root, name, ty, path⟩ := same
  exact operand h (.load (.mk root name ty path)) ty none

theorem nonVoid {f : Unit → Compiler β} {g : Unit → Compiler β'} (twin : e.Twin e') (h : Tandem ts us (f ()) (g ()) Q) :
    Tandem ts us (Compiler.nonVoid e >>= f) (Compiler.nonVoid e' >>= g) Q := by
  obtain ⟨ty, constant, same⟩ := twin
  refine see (A := fun _ _ => True) ?_ fun _ => h
  exact .ite (fun _ => .fail ..) fun _ => pure ⟨rfl, rfl, trivial⟩

theorem widen (target : Ty) (h : Enclosed K depth ts us) (twin : e.Twin e') :
    Tandem ts us (Compiler.widen e target) (Compiler.widen e' target) (Inside (Enclosed K depth) Instr.Twin) := by
  obtain ⟨ty, constant, same⟩ := twin
  exact .ite (fun _ => node h (.convert .float same)) fun _ => pure ⟨h, same⟩

theorem coerce (target : Ty) (h : Enclosed K depth ts us) (twin : e.Twin e') :
    Tandem ts us (Compiler.coerce e target span) (Compiler.coerce e' target span')
      (Inside (Enclosed K depth) Instr.Twin) := by
  refine nonVoid twin ?_
  have wide := widen target h twin
  obtain ⟨ty, constant, same⟩ := twin
  exact .ite (fun _ => wide) fun _ => .fail ..

theorem operandType (op : BinaryOp) (left right : Ty) :
    Tandem ts us (Compiler.operandType op left right span) (Compiler.operandType op left right span')
      (Here ts us fun a b => b = a) := by
  refine .ite (fun _ => .fail ..) fun _ => ?_
  split
  · exact pure ⟨rfl, rfl, rfl⟩
  · exact .fail ..

theorem connect (connective : Connective) {left left' right right' : Operand} (h : Enclosed K depth ts us)
    (first : left.Twin left') (second : right.Twin right') :
    Tandem ts us (Compiler.connect span connective left right) (Compiler.connect span' connective left' right')
      (Inside (Enclosed K depth) Operand.Twin) := by
  have wideLeft (ty : Ty) {ts us : List Token} (h : Enclosed K depth ts us) := widen ty h first
  have wideRight (ty : Ty) {ts us : List Token} (h : Enclosed K depth ts us) := widen ty h second
  obtain ⟨_, _, left⟩ := first
  obtain ⟨_, _, right⟩ := second
  cases connective with
  | binary op =>
    refine (operandType op _ _).see ?_
    rintro _ ty rfl
    exact (wideLeft ty h).next fun h left => (wideRight ty h).next fun h right => operand h
      (.binary op ty left right) _ _
  | logical isAnd =>
    exact .ite (fun _ => .fail ..) fun _ => .ite (fun _ => .fail ..) fun _ => operand h (.logical isAnd left right) _ _

theorem value (hlv : lv.Encloses K) : Compiler.Encloses K (value lv) Operand.Twin := fun h =>
  (hlv.expression h).next fun h twin => nonVoid twin (pure ⟨h, twin⟩)

theorem integer (hlv : lv.Encloses K) (cause : CompileError.Cause) :
    Compiler.Encloses K (integer lv cause) Instr.Twin := fun h => by
  refine (value hlv h).next fun h twin => ?_
  obtain ⟨ty, constant, same⟩ := twin
  exact .ite (fun _ => pure ⟨h, same⟩) fun _ => .fail ..

theorem placeOf (twin : e.Twin e') :
    Tandem ts us (placeOf e span) (placeOf e' span') (Here ts us (Place.Twin Instr.Twin)) := by
  obtain ⟨ty, constant, ⟨_, _, _, _, same⟩⟩ := twin
  cases same with
  | load place => exact pure ⟨rfl, rfl, place⟩
  | _ => exact .fail ..

theorem assignment (op : Operator) (h : Enclosed K depth ts us) (place : p.Twin Instr.Twin q) (twin : e.Twin e') :
    Tandem ts us (assignment op span p e) (assignment op span' q e') (Inside (Enclosed K depth) Operand.Twin) := by
  have coerced (target : Ty) : Tandem ts us (Compiler.coerce e target span) (Compiler.coerce e' target span') _ :=
    coerce target h twin
  have types : q.ty = p.ty := by
    obtain ⟨_, _, _, _⟩ := place
    rfl
  refine nonVoid twin ?_
  obtain ⟨vty, constant, value⟩ := twin
  have stored {ts us : List Token} (h : Enclosed K depth ts us) (op : Option BinaryOp) (ty : Ty) {i j : Instr}
      (value : i.Twin j) : Tandem ts us (do return ⟨← Compiler.node span (.store p op ty i), p.ty, none⟩)
        (do return ⟨← Compiler.node span' (.store q op ty j), p.ty, none⟩) (Inside (Enclosed K depth) Operand.Twin) :=
    operand h (.store place op ty value) _ _
  rw [types]
  split
  · exact (coerced _).next fun h value => stored h none _ value
  · split
    · exact stuck (fun _ _ _ => rfl) fun _ _ _ => rfl
    · refine (operandType _ _ _).see ?_
      rintro _ ty rfl
      split
      · exact stored h _ _ value
      · exact stuck (fun _ _ _ => rfl) fun _ _ _ => rfl

theorem behind_plain {op : Operator} {behind : Nat} {text : String} {span : Span}
    (opens : Token.openBehind? ⟨.operator op, text, span⟩ depth = some behind) (open_ : op.opens = false)
    (close : op.closes = false) : behind = depth := by
  change op.openBehind? depth = some behind at opens
  unfold Operator.openBehind? at opens
  rw [open_, close] at opens
  exact (Option.some.inj opens).symm

theorem plain_of_isAssignment {op : Operator} (h : isAssignment op = true) : op.opens = false ∧ op.closes = false := by
  cases op <;> first | exact ⟨rfl, rfl⟩ | cases h

theorem plain_of_binding? {op : Operator} {b : Binding} (h : binding? op = some b) :
    op.opens = false ∧ op.closes = false := by
  cases op <;> first | exact ⟨rfl, rfl⟩ | cases h

theorem expressionBody (hlv : lv.Encloses K) : Compiler.Encloses K (expressionBody lv) Operand.Twin := fun h => by
  refine (hlv.ternary h).next fun h target => peeking h ?quiet ?quiet' (pure ⟨h, target⟩) ?go
  case quiet | quiet' =>
    rintro ⟨kind, text, span⟩ ⟨op, rfl, ends⟩
    cases op <;> first | rfl | cases ends
  case go =>
    rintro t u ts' us' behind rfl rfl same opens more
    obtain ⟨kind, text, _⟩ := same
    cases kind with
    | operator op =>
      refine .ite (fun assigns => ?_) fun _ => pure ⟨h, target⟩
      obtain ⟨open_, close⟩ := plain_of_isAssignment assigns
      obtain rfl := behind_plain opens open_ close
      exact skip ((placeOf target).see fun place => (hlv.expression more).next fun h twin => assignment op h place twin)
    | _ => exact pure ⟨h, target⟩

theorem ternaryBody (hlv : lv.Encloses K) : Compiler.Encloses K (ternaryBody lv) Operand.Twin := fun {depth _ _} h => by
  refine (hlv.binary 0 h).next fun h cond => (eatOp h .question rfl fun _ => rfl).bind ?_
  rintro ts us _ _ - - (⟨t, u, rfl, rfl, same, -, -, h⟩ | ⟨rfl, rfl, h⟩)
  · obtain ⟨_, _, cond⟩ := cond
    refine .ite (fun _ => .fail ..) fun _ => (value hlv h).next fun h yes =>
      (expectOp h .colon rfl nofun).next fun h _ => (hlv.ternary h).next fun h no => nonVoid no ?_
    have wideYes (ty : Ty) := widen ty h yes
    have wideNo (ty : Ty) {ts us : List Token} (h : Enclosed K depth ts us) := widen ty h no
    obtain ⟨_, _, _⟩ := yes
    obtain ⟨_, _, _⟩ := no
    dsimp only
    split
    · exact .fail ..
    · exact (wideYes _).next fun h yes => (wideNo _ h).next fun h no => operand h (.ternary cond yes no) _ _
  · exact pure ⟨h, cond⟩

theorem eatBinding (floor : Nat) (h : Enclosed K depth ts us) :
    Tandem ts us (Compiler.eatBinding floor) (Compiler.eatBinding floor) fun ts' us' a b =>
      (∃ span span' b', a = some (span, b') ∧ b = some (span', b') ∧ ts'.length < ts.length ∧ us'.length < us.length ∧
        Enclosed K depth ts' us') ∨
      a = none ∧ b = none ∧ Enclosed K depth ts' us' := by
  refine peeking h ?quiet ?quiet' (pure (.inr ⟨rfl, rfl, h⟩)) ?go
  case quiet | quiet' =>
    rintro ⟨kind, text, span⟩ ⟨op, rfl, ends⟩
    cases op <;> first | rfl | cases ends
  case go =>
    rintro t u ts us behind rfl rfl same opens more
    obtain ⟨kind, text, _⟩ := same
    cases kind with
    | operator op =>
      dsimp only
      split
      case h_1 b known =>
        obtain ⟨open_, close⟩ := plain_of_binding? known
        obtain rfl := behind_plain opens open_ close
        refine .ite (fun _ => skip (pure (.inl ?_))) fun _ => pure (.inr ⟨rfl, rfl, h⟩)
        exact ⟨_, _, b, rfl, rfl, Nat.lt_succ_self _, Nat.lt_succ_self _, more⟩
      case h_2 => exact pure (.inr ⟨rfl, rfl, h⟩)
    | _ => exact pure (.inr ⟨rfl, rfl, h⟩)

theorem binaryBody (hlv : lv.Encloses K) (floor : Nat) :
    Compiler.Encloses K (binaryBody lv floor) Operand.Twin := fun {depth _ _} h => by
  refine (hlv.unary h).next fun h first => ?_
  refine loop (Inside (Enclosed K depth) fun a b => a.1.Twin b.1 ∧ b.2 = a.2) ⟨h, first, rfl⟩ ?_
  rintro ts us ⟨left, chained⟩ ⟨left', _⟩ ⟨h, hl, rfl⟩
  refine (eatBinding floor h).bind ?_
  rintro ts' us' _ _ - - (⟨span, span', b, rfl, rfl, lt, lt', h⟩ | ⟨rfl, rfl, h⟩)
  · refine .ite (fun _ => .fail ..) fun _ => (hlv.binary _ h).bind fun le le' ⟨h, right⟩ =>
      (connect _ h hl right).bind fun onward onward' ⟨h, twin⟩ => pure (.on ⟨h, twin, rfl⟩ ?_ ?_) <;> omega
  · exact pure (.done ⟨h, hl⟩)

theorem stepPlace (up before : Bool) (h : Enclosed K depth ts us) (twin : e.Twin e') :
    Tandem ts us (stepPlace span e up before) (stepPlace span' e' up before)
      (Inside (Enclosed K depth) Operand.Twin) := by
  refine (placeOf twin).see fun {p q} place => ?_
  have whole := place
  obtain ⟨_, _, _, _⟩ := place
  exact .ite (fun _ => operand h (.step whole up before) _ _) fun _ => .fail ..

theorem extended {path path' : List (Access Instr)} (root : VarId) (name : String) (ty : Ty)
    (same : path.Forall₂ (Access.Twin Instr.Twin) path') {a a' : Access Instr} (last : a.Twin Instr.Twin a') :
    Place.Twin Instr.Twin ⟨root, name, path ++ [a], ty⟩ ⟨root, name, path' ++ [a'], ty⟩ :=
  .mk root name ty (List.rel_append same (.cons last .nil))

theorem indexAccess (hlv : lv.Encloses K) (h : Enclosed K (depth + 1) ts us) (place : p.Twin Instr.Twin q) :
    Tandem ts us (indexAccess lv span p) (indexAccess lv span' q)
      (Inside (Enclosed K depth) (Place.Twin Instr.Twin)) := by
  obtain ⟨root, name, ty, path⟩ := place
  unfold Compiler.indexAccess
  dsimp only
  split
  · exact .fail ..
  · case h_2 elem _ =>
    exact (integer hlv _ h).next fun h index => (expectOp h .rightBracket rfl nofun).next fun h _ =>
      pure ⟨h, extended root name elem path (.index elem index)⟩

theorem fieldAccess (h : Enclosed K depth ts us) (place : p.Twin Instr.Twin q) :
    Tandem ts us (fieldAccess span p) (fieldAccess span' q) (Inside (Enclosed K depth) (Place.Twin Instr.Twin)) := by
  obtain ⟨root, name, ty, path⟩ := place
  refine .ask fun {ctx ctx'} contexts => ?_
  dsimp only
  rw [contexts.class?]
  cases ty.className?.bind ctx'.class? with
  | none => exact .fail ..
  | some cls =>
    refine (expectIdent h).next fun h same => ?_
    obtain ⟨_, text, _⟩ := same
    dsimp only
    generalize List.find? _ _ = found
    cases found with
    | none => exact .fail ..
    | some f => exact pure ⟨h, extended root name f.1.ty path (.field f.2)⟩

theorem access {t u : Token} (hlv : lv.Encloses K) (same : t.Same u)
    (bracket : t.isOp .leftBracket = true → Enclosed K (depth + 1) ts us)
    (dot : t.isOp .leftBracket = false → Enclosed K depth ts us) (place : p.Twin Instr.Twin q) :
    Tandem (t :: ts) (u :: us) (access lv t e p) (access lv u e' q) fun ts' us' a b =>
      (ts'.length < (t :: ts).length ∧ us'.length < (u :: us).length) ∧
        Inside (Enclosed K depth) Operand.Twin ts' us' a b := by
  have loaded {ts' us' : List Token} {p q : Place Instr} (le : ts'.length ≤ ts.length) (le' : us'.length ≤ us.length)
      (h : Enclosed K depth ts' us') (place : p.Twin Instr.Twin q) :
      Tandem ts' us' (do return ⟨← Compiler.node e.instr.span (.load p), p.ty, none⟩)
        (do return ⟨← Compiler.node e'.instr.span (.load q), q.ty, none⟩) fun ts' us' a b =>
          (ts'.length < (t :: ts).length ∧ us'.length < (u :: us).length) ∧
            Inside (Enclosed K depth) Operand.Twin ts' us' a b :=
    (load h place).imp fun onward onward' kept =>
      ⟨⟨Nat.lt_succ_of_le (Nat.le_trans onward le), Nat.lt_succ_of_le (Nat.le_trans onward' le')⟩, kept⟩
  refine skip ?_
  rw [← same.isOp]
  cases opens : t.isOp .leftBracket with
  | true => exact (indexAccess hlv (bracket opens) place).bind fun le le' ⟨h, place⟩ => loaded le le' h place
  | false => exact (fieldAccess (dot opens) place).bind fun le le' ⟨h, place⟩ => loaded le le' h place

theorem accesses (hlv : lv.Encloses K) : Compiler.Encloses K (accesses lv) Operand.Twin := fun {depth _ _} h => by
  refine (hlv.primary h).next fun h first => ?_
  refine loop (Inside (Enclosed K depth) Operand.Twin) ⟨h, first⟩ ?_
  rintro ts us e e' ⟨h, twin⟩
  have done : Tandem ts us (return .inr e) (return .inr e')
      (Turned (Inside (Enclosed K depth) Operand.Twin) (Inside (Enclosed K depth) Operand.Twin) ts us) :=
    pure (.done ⟨h, twin⟩)
  refine peeking h ?quiet ?quiet' done ?go
  case quiet | quiet' =>
    intro t ends
    dsimp only
    rw [isOp_of_ends ends rfl, isOp_of_ends ends rfl, isOp_of_ends ends rfl, isOp_of_ends ends rfl]
    split <;> rfl
  case go =>
    rintro t u ts us behind rfl rfl alike opens more
    have behind_of {op : Operator} (is : t.isOp op = true) : op.openBehind? depth = some behind :=
      (openBehind?_of_isOp is).symm.trans opens
    have whole := twin
    obtain ⟨ty, constant, ⟨_, _, _, _, same⟩⟩ := twin
    have isOp (op : Operator) : u.isOp op = t.isOp op := (alike.isOp op).symm
    cases same with
    | load place =>
      dsimp only [Instr.form]
      rw [isOp, isOp, isOp, isOp]
      refine .ite (fun reaches => ?_) fun _ => .ite (fun steps => ?_) fun _ => done
      · refine (access hlv alike (fun bracket => ?_) (fun other => ?_) place).bind fun _ _ ⟨⟨lt, lt'⟩, kept⟩ =>
          pure (.on kept lt lt')
        · cases behind_of bracket
          exact more
        · cases behind_of (reaches.resolve_left fun bracket => Bool.false_ne_true (other.symm.trans bracket))
          exact more
      · obtain rfl : behind = depth := by
          rcases steps with is | is <;> exact (Option.some.inj (behind_of is)).symm
        exact skip ((stepPlace _ _ more whole).next fun h twin => pure (.done ⟨h, twin⟩))
    | _ =>
      dsimp only [Instr.form]
      rw [isOp, isOp]
      exact .ite (fun _ => .fail ..) fun _ => .ite (fun _ => .fail ..) fun _ => done

theorem unaryOperation {t u : Token} (hlv : lv.Encloses K) (h : Enclosed K depth ts us) (op : UnaryOp) :
    Tandem (t :: ts) (u :: us) (unaryOperation lv span op) (unaryOperation lv span' op)
      (Inside (Enclosed K depth) Operand.Twin) := by
  refine skip ((hlv.unary h).next fun h twin => ?_)
  obtain ⟨_, _, same⟩ := twin
  exact .ite (fun _ => operand h (.unary op same) _ _) fun _ => .fail ..

theorem unaryBody (hlv : lv.Encloses K) : Compiler.Encloses K (unaryBody lv) Operand.Twin := fun h => by
  refine peeking h ?quiet ?quiet' (accesses hlv h) ?go
  case quiet | quiet' =>
    rintro ⟨kind, text, span⟩ ⟨op, rfl, ends⟩
    cases op <;> first | rfl | cases ends
  case go =>
    rintro t u ts us behind rfl rfl same opens more
    obtain ⟨kind, text, _⟩ := same
    cases kind with
    | operator op =>
      have plain (open_ : op.opens = false) (close : op.closes = false) : Enclosed K _ ts us :=
        behind_plain opens open_ close ▸ more
      cases op with
      | sub => exact unaryOperation hlv (plain rfl rfl) _
      | not => exact unaryOperation hlv (plain rfl rfl) _
      | complement => exact unaryOperation hlv (plain rfl rfl) _
      | add =>
        refine skip ((hlv.unary (plain rfl rfl)).next fun h twin => ?_)
        have whole := twin
        obtain ⟨_, _, _⟩ := twin
        exact .ite (fun _ => pure ⟨h, whole⟩) fun _ => .fail ..
      | increment => exact skip ((hlv.unary (plain rfl rfl)).next fun h twin => stepPlace _ _ h twin)
      | decrement => exact skip ((hlv.unary (plain rfl rfl)).next fun h twin => stepPlace _ _ h twin)
      | _ => exact accesses hlv h
    | _ => exact accesses hlv h

theorem literal (v : Variable) (h : Enclosed K depth ts us) :
    Tandem ts us (literal span v) (literal span' v) (Inside (Enclosed K depth) Operand.Twin) :=
  operand h (.literal v) _ _

theorem widenArgs {args args' : List Operand} (targets : List (Option Ty)) (h : Enclosed K depth ts us)
    (same : args.Forall₂ Operand.Twin args') :
    Tandem ts us (widenArgs args targets) (widenArgs args' targets)
      (Inside (Enclosed K depth) (List.Forall₂ Instr.Twin)) := by
  induction same generalizing ts us targets with
  | nil => exact pure ⟨h, .nil⟩
  | cons first _ ih =>
    cases targets with
    | nil => exact pure ⟨h, .nil⟩
    | cons target? targets =>
      have rest {ts us : List Token} {i j : Instr} (h : Enclosed K depth ts us) (same : i.Twin j) :
          Tandem ts us (do return i :: (← Compiler.widenArgs _ targets))
            (do return j :: (← Compiler.widenArgs _ targets)) (Inside (Enclosed K depth) (List.Forall₂ Instr.Twin)) :=
        (ih targets h).next fun h all => pure ⟨h, .cons same all⟩
      cases target? with
      | some target => exact (widen target h first).next fun h same => rest h same
      | none =>
        obtain ⟨_, _, same⟩ := first
        exact rest h same

theorem resolveCall (name : String) (args : List Ty) :
    Tandem ts us (onScopes? fun s => s.resolveCall name span args) (onScopes? fun s => s.resolveCall name span' args)
      (Here ts us fun a b => b = a) := by
  refine ⟨fun {ctx ctx' s t} abreast => ?_⟩
  unfold onScopes? ScopeStack.resolveCall
  dsimp only
  rw [abreast.scopes.candidates]
  split
  · exact .some ⟨rfl, Nat.le_refl _⟩ ⟨rfl, Nat.le_refl _⟩ ⟨abreast.left, abreast.right, rfl⟩
  all_goals exact .none ..

theorem call {t u : Token} (hlv : lv.Encloses K) (h : Enclosed K (depth + 1) ts us) {name name' : Token}
    (same : name.Same name') :
    Tandem (t :: ts) (u :: us) (call lv name) (call lv name') (Inside (Enclosed K depth) Operand.Twin) := by
  obtain ⟨kind, text, _⟩ := same
  refine skip ((eatOp h .rightParen rfl nofun).bind ?_)
  extract_lets resolved resolved'
  have called {ts us : List Token} {args args' : List Operand} (h : Enclosed K depth ts us)
      (same : args.Forall₂ Operand.Twin args') :
      Tandem ts us (resolved args) (resolved' args') (Inside (Enclosed K depth) Operand.Twin) := by
    have types : args'.map Operand.ty = args.map Operand.ty := by
      induction same with
      | nil => rfl
      | cons first _ ih =>
        obtain ⟨ty, _, _⟩ := first
        rw [List.map_cons, List.map_cons, ih]
    dsimp only [resolved, resolved']
    rw [types]
    refine (resolveCall text _).see ?_
    rintro answer _ rfl
    exact (widenArgs _ h same).next fun h args => operand h (.call _ args _) _ _
  rintro ts us _ _ - - (⟨t, u, rfl, rfl, -, -, -, h⟩ | ⟨rfl, rfl, h⟩)
  · exact called h .nil
  · exact (commaList h (value hlv)).next fun h args => (expectOp h .rightParen rfl nofun).next fun h _ => called h args

theorem nameUse {name name' : Token} (h : Enclosed K depth ts us) (same : name.Same name') :
    Tandem ts us (nameUse name) (nameUse name') (Inside (Enclosed K depth) Operand.Twin) := by
  obtain ⟨kind, text, _⟩ := same
  refine get.see ?_
  rintro s t ⟨scopes, -, -⟩
  dsimp only
  rw [scopes.find?]
  cases t.scopes.find? text with
  | none =>
    refine .ask fun {ctx ctx'} contexts => ?_
    rw [contexts.env]
    cases ctx'.env.constant? text with
    | none => exact .fail ..
    | some i => exact literal _ h
  | some v => exact operand h (.load (.mk v.id text v.ty .nil)) v.ty none

theorem newObject (h : Enclosed K depth ts us) :
    Tandem ts us (newObject span) (newObject span') (Inside (Enclosed K depth) Operand.Twin) := by
  refine (expectIdent h).next fun h same => .ask fun {ctx ctx'} contexts => ?_
  obtain ⟨_, text, _⟩ := same
  rw [contexts.class?]
  cases ctx'.class? text with
  | none => exact .fail ..
  | some cls =>
    have made {ts us : List Token} (h : Enclosed K depth ts us) :
        Tandem ts us (do return ⟨← Compiler.node span (.new cls), .named cls.name, none⟩)
          (do return ⟨← Compiler.node span' (.new cls), .named cls.name, none⟩)
          (Inside (Enclosed K depth) Operand.Twin) := operand h (.new cls) _ _
    refine (eatOp h .leftParen rfl fun _ => rfl).bind ?_
    rintro ts us _ _ - - (⟨t, u, rfl, rfl, -, -, -, h⟩ | ⟨rfl, rfl, h⟩)
    · exact (expectOp h .rightParen rfl nofun).next fun h _ => made h
    · exact made h

theorem primaryBody_fails (ends : ∀ t ∈ ts.head?, t.Ends) : Fails ts (primaryBody lv) := by
  intro ctx s front
  have read : advance? ctx s = (some ts.head?, { s with rest := s.rest.tail }) := front ▸ rfl
  unfold Compiler.primaryBody
  rw [bind_apply, read]
  cases next : ts.head? with
  | none => rfl
  | some t =>
    obtain ⟨kind, text, span⟩ := t
    obtain ⟨op, rfl, ended⟩ := ends _ next
    cases op <;> first | rfl | cases ended

theorem primaryBody (hlv : lv.Encloses K) : Compiler.Encloses K (primaryBody lv) Operand.Twin :=
    fun {depth ts us} h => by
  rcases h.front with ⟨t, u, ts, us, behind, rfl, rfl, same, opens, more⟩ | ⟨-, ends, ends'⟩
  · refine skip ?_
    have alike := same
    obtain ⟨kind, text, _⟩ := same
    cases kind with
    | operator op =>
      cases op with
      | leftParen =>
        cases opens
        exact (hlv.expression more).next fun h twin => (expectOp h .rightParen rfl nofun).next fun h _ => pure ⟨h, twin⟩
      | _ => exact .fail ..
    | identifier =>
      cases opens
      refine (atOp .leftParen).see ?_
      rintro _ _ ⟨rfl, rfl⟩
      rcases more.front with ⟨t, u, ts, us, behind, rfl, rfl, same, opens, inner⟩ | ⟨-, ends, ends'⟩
      · rw [List.head?_cons, List.head?_cons, Option.any_some, Option.any_some, ← same.isOp]
        refine .ite (fun bracket => ?_) fun _ => nameUse more alike
        rw [openBehind?_of_isOp bracket] at opens
        cases opens
        exact call hlv inner alike
      · rw [any_isOp_of_ends ends rfl, any_isOp_of_ends ends' rfl]
        exact nameUse more alike
    | integer =>
      cases opens
      dsimp only
      cases Integer.ofLiteral? text with
      | none => exact .fail ..
      | some i => exact literal _ more
    | real =>
      cases opens
      dsimp only
      cases Binary32.ofText? text with
      | none => exact .fail ..
      | some x => exact literal _ more
    | string =>
      cases opens
      exact literal _ more
    | keyword word =>
      cases opens
      cases word with
      | trueWord => exact literal _ more
      | falseWord => exact literal _ more
      | nullWord => exact operand more (.literal _) _ _
      | newWord => exact newObject more
      | _ => exact .fail ..
    | _ => exact .fail ..
  · exact fails (primaryBody_fails ends) (primaryBody_fails ends')

end Tandem

theorem Level.encloses_ofRoom (K : Tails) (room : Nat) : (Level.ofRoom room).Encloses K := by
  induction room with
  | zero =>
    have tooDeep {depth : Nat} {ts us : List Token} : Tandem ts us (do fail .tooDeep (← here) : Compiler Operand)
        (do fail .tooDeep (← here)) (Inside (Enclosed K depth) Operand.Twin) :=
      .fails (fun _ _ _ => rfl) fun _ _ _ => rfl
    exact ⟨fun _ => tooDeep, fun _ => tooDeep, fun _ _ _ _ _ => tooDeep, fun _ => tooDeep, fun _ => tooDeep⟩
  | succ room ih =>
    exact ⟨fun h => .inFrame false (.expressionBody ih h), fun h => .inFrame false (.ternaryBody ih h),
      fun floor _ _ _ h => .inFrame false (.binaryBody ih floor h), fun h => .inFrame false (.unaryBody ih h),
      fun h => .inFrame false (.primaryBody ih h)⟩

end Tickwise
