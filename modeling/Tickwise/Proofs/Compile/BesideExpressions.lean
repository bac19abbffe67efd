import Tickwise.Proofs.Compile.Beside
set_option autoImplicit false

/-!
# Expressions side by side

The routines for expressions read runs of tokens with as many left as right braces, and what they look at in the
operands of both runs is the same but for ranges.
-/
namespace Tickwise

open Compile Compiler

/-- Places of the same type. -/
inductive Place.Alike : Place Instr → Place Instr → Prop
  | mk (root root' : VarId) (name name' : String) (path path' : List (Access Instr)) (ty : Ty) :
    Alike ⟨root, name, path, ty⟩ ⟨root', name', path', ty⟩

def Form.loaded? : Form Instr → Option (Place Instr)
  | .load place => some place
  | _ => none

/-- Both load places of the same type, or neither loads a place. -/
inductive Form.Alike : Form Instr → Form Instr → Prop
  | load {p q : Place Instr} (same : p.Alike q) : Alike (.load p) (.load q)
  | other {f g : Form Instr} (left : f.loaded? = none) (right : g.loaded? = none) : Alike f g

/-- What other routines look at in an instruction. -/
inductive Instr.Alike (R : Span → Span → Prop) : Instr → Instr → Prop
  | mk (id id' : NodeId) {span span' : Span} (hspan : R span span') {form form' : Form Instr}
    (hform : form.Alike form') :
    Alike R (.mk id span form) (.mk id' span' form')

theorem Instr.Alike.span {R : Span → Span → Prop} {i j : Instr} (h : i.Alike R j) : R i.span j.span := by
  cases h with
  | mk _ _ hspan => exact hspan

inductive Compile.Operand.Alike (R : Span → Span → Prop) : Operand → Operand → Prop
  | mk {i j : Instr} (ty : Ty) (constant : Option Variable) (h : i.Alike R j) :
    Alike R ⟨i, ty, constant⟩ ⟨j, ty, constant⟩

theorem Compile.Operand.Alike.span {R : Span → Span → Prop} {e e' : Operand} (h : e.Alike R e') :
    R e.instr.span e'.instr.span := by
  cases h with
  | mk _ _ same => exact same.span

/-- A routine that reads as many left as right braces. -/
def Compiler.Balanced {α : Type} (K : Sides) (c : Compiler α) (A : α → α → Prop) : Prop :=
  ∀ {depth : Nat} {ts us : List Token}, Aligned K (depth + 1) ts us →
    Beside K ts us c c (Inside (Aligned K (depth + 1)) A)

structure Level.Balanced (K : Sides) (lv : Level) : Prop where
  statement : Compiler.Balanced K lv.statement fun _ _ => True
  expression : Compiler.Balanced K lv.expression (Operand.Alike K.R)
  ternary : Compiler.Balanced K lv.ternary (Operand.Alike K.R)
  binary : ∀ floor, Compiler.Balanced K (lv.binary floor) (Operand.Alike K.R)
  unary : Compiler.Balanced K lv.unary (Operand.Alike K.R)
  primary : Compiler.Balanced K lv.primary (Operand.Alike K.R)

theorem Operator.isBrace_of_isAssignment {op : Operator} (h : isAssignment op = true) : op.isBrace = false := by
  cases op <;> first | rfl | cases h

theorem Operator.isBrace_of_binding? {op : Operator} {b : Binding} (h : binding? op = some b) : op.isBrace = false := by
  cases op <;> first | rfl | cases h

namespace Beside

variable {α β β' : Type} {K : Sides} {ts us : List Token} {depth : Nat} {lv : Level} {span span' : Span}
  {e e' : Operand} {p q : Place Instr} {Q : List Token → List Token → β → β' → Prop}

theorem node {form form' : Form Instr} (h : Aligned K depth ts us) (hspan : K.R span span') (hf : form.Alike form') :
    Beside K ts us (node span form) (node span' form') (Inside (Aligned K depth) (Instr.Alike K.R)) :=
  ⟨fun _ _ _ _ hs ht same => ⟨same, hs ▸ ht ▸ h, .mk _ _ hspan hf⟩⟩

theorem emit {form form' : Form Instr} (h : Aligned K depth ts us) :
    Beside K ts us (Compiler.node span form) (Compiler.node span' form') (Inside (Aligned K depth) fun _ _ => True) :=
  ⟨fun _ _ _ _ hs ht same => ⟨same, hs ▸ ht ▸ h, trivial⟩⟩

/-- A new instruction that loads no place, with its type and its constant value. -/
theorem operand {form form' : Form Instr} (h : Aligned K depth ts us) (hspan : K.R span span')
    (left : form.loaded? = none) (right : form'.loaded? = none) (ty : Ty) (constant : Option Variable) :
    Beside K ts us (do return ⟨← Compiler.node span form, ty, constant⟩)
      (do return ⟨← Compiler.node span' form', ty, constant⟩) (Inside (Aligned K depth) (Operand.Alike K.R)) :=
  (node h hspan (.other left right)).next fun h hi => pure ⟨h, .mk ty constant hi⟩

theorem load (h : Aligned K depth ts us) (hspan : K.R span span') (hp : p.Alike q) :
    Beside K ts us (do return ⟨← Compiler.node span (.load p), p.ty, none⟩)
      (do return ⟨← Compiler.node span' (.load q), q.ty, none⟩) (Inside (Aligned K depth) (Operand.Alike K.R)) := by
  obtain ⟨⟩ := hp
  exact (node h hspan (.load (.mk ..))).next fun h hi => pure ⟨h, .mk _ none hi⟩

theorem nonVoid {f : Unit → Compiler β} {g : Unit → Compiler β'} (he : e.Alike K.R e')
    (h : Beside K ts us (f ()) (g ()) Q) :
    Beside K ts us (Compiler.nonVoid e >>= f) (Compiler.nonVoid e' >>= g) Q := by
  obtain ⟨ty, constant, hi⟩ := he
  refine bind (Q := fun ts' us' _ _ => ts' = ts ∧ us' = us) ?_ ?_
  · exact .ite (fun _ => .fail _ hi.span) fun _ => pure ⟨rfl, rfl⟩
  · rintro _ _ _ _ ⟨rfl, rfl⟩
    exact h

theorem widen (target : Ty) (h : Aligned K depth ts us) (he : e.Alike K.R e') :
    Beside K ts us (Compiler.widen e target) (Compiler.widen e' target)
      (Inside (Aligned K depth) (Instr.Alike K.R)) := by
  obtain ⟨ty, constant, hi⟩ := he
  exact .ite (fun _ => node h hi.span (.other rfl rfl)) fun _ => pure ⟨h, hi⟩

theorem coerce (target : Ty) (h : Aligned K depth ts us) (hspan : K.R span span') (he : e.Alike K.R e') :
    Beside K ts us (Compiler.coerce e target span) (Compiler.coerce e' target span')
      (Inside (Aligned K depth) (Instr.Alike K.R)) := by
  refine nonVoid he ?_
  have wide := widen target h he
  obtain ⟨ty, constant, hi⟩ := he
  exact .ite (fun _ => wide) fun _ => .fail _ hspan

theorem operandType (op : BinaryOp) (left right : Ty) (hspan : K.R span span') :
    Beside K ts us (Compiler.operandType op left right span) (Compiler.operandType op left right span')
      (Here ts us fun a b => b = a) := by
  refine .ite (fun _ => .fail _ hspan) fun _ => ?_
  split
  · exact pure ⟨rfl, rfl, rfl⟩
  · exact .fail _ hspan

theorem connect (connective : Connective) {left left' right right' : Operand} (h : Aligned K depth ts us)
    (hspan : K.R span span') (hl : left.Alike K.R left') (hr : right.Alike K.R right') :
    Beside K ts us (Compiler.connect span connective left right) (Compiler.connect span' connective left' right')
      (Inside (Aligned K depth) (Operand.Alike K.R)) := by
  have wideLeft (ty : Ty) {ts us : List Token} (h : Aligned K depth ts us) := widen ty h hl
  have wideRight (ty : Ty) {ts us : List Token} (h : Aligned K depth ts us) := widen ty h hr
  obtain ⟨_, _, hi⟩ := hl
  obtain ⟨_, _, hj⟩ := hr
  cases connective with
  | binary op =>
    refine (operandType op _ _ hspan).see ?_
    rintro _ ty rfl
    exact (wideLeft ty h).next fun h _ => (wideRight ty h).next fun h _ => operand h hspan rfl rfl _ _
  | logical isAnd =>
    exact .ite (fun _ => .fail _ hi.span) fun _ => .ite (fun _ => .fail _ hj.span) fun _ =>
      operand h hspan rfl rfl _ _

theorem value (hlv : lv.Balanced K) : Compiler.Balanced K (value lv) (Operand.Alike K.R) := fun h =>
  (hlv.expression h).next fun h he => nonVoid he (pure ⟨h, he⟩)

theorem condition (hlv : lv.Balanced K) : Compiler.Balanced K (condition lv) (Instr.Alike K.R) := fun h => by
  refine (value hlv h).next fun h he => ?_
  obtain ⟨_, _, hi⟩ := he
  exact .ite (fun _ => pure ⟨h, hi⟩) fun _ => .fail _ hi.span

theorem integer (hlv : lv.Balanced K) (cause : CompileError.Cause) :
    Compiler.Balanced K (integer lv cause) (Instr.Alike K.R) := fun h => by
  refine (value hlv h).next fun h he => ?_
  obtain ⟨_, _, hi⟩ := he
  exact .ite (fun _ => pure ⟨h, hi⟩) fun _ => .fail _ hi.span

/-- What is done with a place that is loaded is not done where none is. -/
theorem other {form form' : Form Instr} (left : form.loaded? = none) (right : form'.loaded? = none)
    {c : Place Instr → Compiler β} {c' : Place Instr → Compiler β'} {d : Compiler β} {d' : Compiler β'}
    (h : Beside K ts us d d' Q) :
    Beside K ts us (match form with | .load place => c place | _ => d)
      (match form' with | .load place => c' place | _ => d') Q := by
  split
  · cases left
  · split
    · cases right
    · exact h

theorem placeOf (he : e.Alike K.R e') (hspan : K.R span span') :
    Beside K ts us (placeOf e span) (placeOf e' span') (Here ts us Place.Alike) := by
  obtain ⟨ty, constant, ⟨_, _, _, form⟩⟩ := he
  cases form with
  | load same => exact pure ⟨rfl, rfl, same⟩
  | other left right => exact other left right (.fail _ hspan)

theorem assignment (op : Operator) (h : Aligned K depth ts us) (hspan : K.R span span') (hp : p.Alike q)
    (he : e.Alike K.R e') :
    Beside K ts us (assignment op span p e) (assignment op span' q e')
      (Inside (Aligned K depth) (Operand.Alike K.R)) := by
  have coerced (target : Ty) := coerce target h hspan he
  obtain ⟨_, _, _, _, _, _, ty⟩ := hp
  refine nonVoid he ?_
  obtain ⟨vty, constant, hi⟩ := he
  split
  · exact (coerced ty).next fun h _ => operand h hspan rfl rfl _ _
  · split
    · exact fails _ hspan
    · refine (operandType _ _ _ hspan).see ?_
      rintro _ operandTy rfl
      split
      · exact operand h hspan rfl rfl _ _
      · exact fails _ hspan

theorem expressionBody (hlv : lv.Balanced K) :
    Compiler.Balanced K (expressionBody lv) (Operand.Alike K.R) := fun h => by
  refine (hlv.ternary h).next fun h he => peek?.see ?_
  rintro _ _ ⟨rfl, rfl⟩
  obtain ⟨t, u, ts, us, rfl, rfl, ⟨kind, text, hspan⟩, -⟩ := h.heads
  cases kind with
  | operator op =>
    refine .ite (fun assigns => ?_) fun _ => pure ⟨h, he⟩
    have h := h.behind (Operator.isBrace_of_isAssignment assigns) (decide_eq_true rfl)
    exact skip ((placeOf he hspan).see fun _ _ hp => (hlv.expression h).next fun h hv => assignment op h hspan hp hv)
  | _ => exact pure ⟨h, he⟩

theorem ternaryBody (hlv : lv.Balanced K) : Compiler.Balanced K (ternaryBody lv) (Operand.Alike K.R) := fun h => by
  refine (hlv.binary 0 h).next fun h hc => (eatOp h .question rfl).next fun h question => ?_
  cases question with
  | none => exact pure ⟨h, hc⟩
  | some same =>
    obtain ⟨_, _, hspan⟩ := same
    obtain ⟨_, _, hi⟩ := hc
    refine .ite (fun _ => .fail _ hi.span) fun _ =>
      (value hlv h).next fun h hy => (expectOp h .colon rfl).next fun h _ =>
      (hlv.ternary h).next fun h hn => nonVoid hn ?_
    have wideYes (ty : Ty) := widen ty h hy
    have wideNo (ty : Ty) {depth : Nat} {ts us : List Token} (h : Aligned K depth ts us) := widen ty h hn
    obtain ⟨_, _, _⟩ := hy
    obtain ⟨_, _, _⟩ := hn
    dsimp only
    split
    · exact .fail _ hspan
    · exact (wideYes _).next fun h _ => (wideNo _ h).next fun h _ => operand h hspan rfl rfl _ _

theorem eatBinding (floor : Nat) : Compiler.Balanced K (eatBinding floor)
    (Option.Rel fun a b => K.R a.1 b.1 ∧ b.2 = a.2) := fun h => by
  refine peek?.see ?_
  rintro _ _ ⟨rfl, rfl⟩
  obtain ⟨t, u, ts, us, rfl, rfl, ⟨kind, text, hspan⟩, -⟩ := h.heads
  cases kind with
  | operator op =>
    dsimp only [List.head?_cons]
    split
    case h_1 b known =>
      have h' := h.behind (Operator.isBrace_of_binding? known) (decide_eq_true rfl)
      exact .ite (fun _ => skip (pure ⟨h', .some ⟨hspan, rfl⟩⟩)) fun _ => pure ⟨h, .none⟩
    case h_2 => exact pure ⟨h, .none⟩
  | _ => exact pure ⟨h, .none⟩

theorem binaryBody (hlv : lv.Balanced K) (floor : Nat) :
    Compiler.Balanced K (binaryBody lv floor) (Operand.Alike K.R) := fun {depth _ _} h => by
  refine (hlv.unary h).next fun h hf => ?_
  refine loop (Inside (Aligned K (depth + 1)) fun a b => a.1.Alike K.R b.1 ∧ b.2 = a.2) ⟨h, hf, rfl⟩ ?_
  rintro ts us ⟨left, chained⟩ ⟨left', _⟩ ⟨h, hl, rfl⟩
  refine (eatBinding floor h).next fun h same => ?_
  cases same with
  | none => exact pure ⟨h, hl⟩
  | @some x y same =>
    obtain ⟨span, b⟩ := x
    obtain ⟨span', _⟩ := y
    obtain ⟨hspan, rfl⟩ := same
    exact .ite (fun _ => .fail _ hspan) fun _ => (hlv.binary _ h).next fun h hr =>
      (connect _ h hspan hl hr).next fun h he => pure ⟨h, he, rfl⟩

theorem stepPlace (up before : Bool) (h : Aligned K depth ts us) (hspan : K.R span span') (he : e.Alike K.R e') :
    Beside K ts us (stepPlace span e up before) (stepPlace span' e' up before)
      (Inside (Aligned K depth) (Operand.Alike K.R)) := by
  refine (placeOf he hspan).see fun p q hp => ?_
  obtain ⟨_, _, _, _, _, _, ty⟩ := hp
  exact .ite (fun _ => operand h hspan rfl rfl _ _) fun _ => .fail _ hspan

theorem indexAccess (hlv : lv.Balanced K) (h : Aligned K (depth + 1) ts us) (hspan : K.R span span') (hp : p.Alike q) :
    Beside K ts us (indexAccess lv span p) (indexAccess lv span' q) (Inside (Aligned K (depth + 1)) Place.Alike) := by
  obtain ⟨_, _, _, _, _, _, ty⟩ := hp
  unfold Compiler.indexAccess
  dsimp only
  split
  · exact .fail _ hspan
  · exact (integer hlv _ h).next fun h _ => (expectOp h .rightBracket rfl).next fun h _ => pure ⟨h, .mk ..⟩

theorem fieldAccess (h : Aligned K (depth + 1) ts us) (hspan : K.R span span') (hp : p.Alike q) :
    Beside K ts us (fieldAccess span p) (fieldAccess span' q) (Inside (Aligned K (depth + 1)) Place.Alike) := by
  obtain ⟨_, _, _, _, _, _, ty⟩ := hp
  refine .ask fun ctx _ => ?_
  dsimp only
  rw [ctx.class?_endSpan K.stop]
  cases ty.className?.bind ctx.class? with
  | none => exact .fail _ hspan
  | some cls =>
    refine (expectIdent h).next fun h same => ?_
    obtain ⟨_, text, hname⟩ := same
    dsimp only
    generalize List.find? _ _ = found
    cases found with
    | none => exact .fail _ hname
    | some => exact pure ⟨h, .mk ..⟩

theorem access {t u : Token} (hlv : lv.Balanced K) (h : Aligned K (depth + 1) ts us) (same : t.Alike K.R u)
    (he : e.Alike K.R e') (hp : p.Alike q) :
    Beside K (t :: ts) (u :: us) (access lv t e p) (access lv u e' q)
      (Inside (Aligned K (depth + 1)) (Operand.Alike K.R)) := by
  obtain ⟨_, _, hi⟩ := he
  refine skip ?_
  rw [same.isOp]
  obtain ⟨kind, text, hspan⟩ := same
  split
  · exact (indexAccess hlv h hspan hp).next fun h hp => load h hi.span hp
  · exact (fieldAccess h hspan hp).next fun h hp => load h hi.span hp

theorem accesses (hlv : lv.Balanced K) :
    Compiler.Balanced K (accesses lv) (Operand.Alike K.R) := fun {depth _ _} h => by
  refine (hlv.primary h).next fun h he => ?_
  refine loop (Inside (Aligned K (depth + 1)) (Operand.Alike K.R)) ⟨h, he⟩ ?_
  rintro ts us e e' ⟨h, he⟩
  refine peek?.see ?_
  rintro _ _ ⟨rfl, rfl⟩
  obtain ⟨t, u, ts, us, rfl, rfl, same, -⟩ := h.heads
  have whole := he
  obtain ⟨ty, constant, ⟨_, _, _, form⟩⟩ := he
  have alike := same
  obtain ⟨kind, text, hspan⟩ := same
  cases form with
  | load hp =>
    refine .ite (fun opens => ?_) fun _ => .ite (fun steps => ?_) fun _ => pure ⟨h, whole⟩
    · have h' : Aligned K (depth + 1) ts us := opens.elim (h.behind rfl) (h.behind rfl)
      exact (access hlv h' alike whole hp).next fun h he => pure ⟨h, he⟩
    · have h' : Aligned K (depth + 1) ts us := steps.elim (h.behind rfl) (h.behind rfl)
      exact skip ((stepPlace _ _ h' hspan whole).next fun h he => pure ⟨h, he⟩)
  | other left right =>
    exact other left right <| .ite (fun _ => .fail _ hspan) fun _ =>
      .ite (fun _ => .fail _ hspan) fun _ => pure ⟨h, whole⟩

theorem unaryOperation {t u : Token} (hlv : lv.Balanced K) (h : Aligned K (depth + 1) ts us) (hspan : K.R span span')
    (op : UnaryOp) : Beside K (t :: ts) (u :: us) (unaryOperation lv span op) (unaryOperation lv span' op)
      (Inside (Aligned K (depth + 1)) (Operand.Alike K.R)) := by
  refine skip ((hlv.unary h).next fun h he => ?_)
  obtain ⟨_, _, hi⟩ := he
  exact .ite (fun _ => operand h hspan rfl rfl _ _) fun _ => .fail _ hspan

theorem unaryBody (hlv : lv.Balanced K) : Compiler.Balanced K (unaryBody lv) (Operand.Alike K.R) := fun h => by
  refine peek?.see ?_
  rintro _ _ ⟨rfl, rfl⟩
  obtain ⟨t, u, ts, us, rfl, rfl, ⟨kind, text, hspan⟩, -⟩ := h.heads
  cases kind with
  | operator op =>
    have behind (hop : op.isBrace = false) : Aligned K _ ts us := h.behind hop (decide_eq_true rfl)
    cases op with
    | sub => exact unaryOperation hlv (behind rfl) hspan _
    | not => exact unaryOperation hlv (behind rfl) hspan _
    | complement => exact unaryOperation hlv (behind rfl) hspan _
    | add =>
      refine skip ((hlv.unary (behind rfl)).next fun h he => ?_)
      have whole := he
      obtain ⟨_, _, _⟩ := he
      exact .ite (fun _ => pure ⟨h, whole⟩) fun _ => .fail _ hspan
    | increment => exact skip ((hlv.unary (behind rfl)).next fun h he => stepPlace _ _ h hspan he)
    | decrement => exact skip ((hlv.unary (behind rfl)).next fun h he => stepPlace _ _ h hspan he)
    | _ => exact accesses hlv h
  | _ => exact accesses hlv h

theorem literal (v : Variable) (h : Aligned K depth ts us) (hspan : K.R span span') :
    Beside K ts us (literal span v) (literal span' v) (Inside (Aligned K depth) (Operand.Alike K.R)) :=
  operand h hspan rfl rfl _ _

theorem widenArgs {args args' : List Operand} (targets : List (Option Ty)) (h : Aligned K depth ts us)
    (same : args.Forall₂ (Operand.Alike K.R) args') :
    Beside K ts us (widenArgs args targets) (widenArgs args' targets) (Inside (Aligned K depth) fun _ _ => True) := by
  induction same generalizing ts us targets with
  | nil => exact pure ⟨h, trivial⟩
  | cons first _ ih =>
    cases targets with
    | nil => exact pure ⟨h, trivial⟩
    | cons target? targets =>
      have rest {ts us : List Token} {i j : Instr} (h : Aligned K depth ts us) :
          Beside K ts us (do return i :: (← Compiler.widenArgs _ targets))
            (do return j :: (← Compiler.widenArgs _ targets))
            (Inside (Aligned K depth) fun _ _ => True) := (ih targets h).next fun h _ => pure ⟨h, trivial⟩
      cases target? with
      | some target => exact (widen target h first).next fun h _ => rest h
      | none => exact rest h

theorem call {t u : Token} (hlv : lv.Balanced K) (h : Aligned K (depth + 1) ts us) {name name' : Token}
    (same : name.Alike K.R name') :
    Beside K (t :: ts) (u :: us) (call lv name) (call lv name')
      (Inside (Aligned K (depth + 1)) (Operand.Alike K.R)) := by
  obtain ⟨kind, text, hspan⟩ := same
  refine skip ((eatOp h .rightParen rfl).next fun h closing => ?_)
  extract_lets resolved resolved'
  have hresolved {ts us : List Token} {args args' : List Operand} (h : Aligned K (depth + 1) ts us)
      (same : args.Forall₂ (Operand.Alike K.R) args') :
      Beside K ts us (resolved args) (resolved' args') (Inside (Aligned K (depth + 1)) (Operand.Alike K.R)) := by
    have types : args.map Operand.ty = args'.map Operand.ty := by
      induction same with
      | nil => rfl
      | cons first _ ih =>
        obtain ⟨ty, _, _⟩ := first
        rw [List.map_cons, List.map_cons, ih]
    refine (onScopes? (A := Eq) fun s t scopes => ?_).see ?_
    · obtain ⟨same, scopes⟩ := scopes.resolveCall text hspan (args'.map Operand.ty)
      dsimp only
      rw [types, same]
      refine ⟨scopes, ?_⟩
      cases (t.resolveCall text _ (args'.map Operand.ty)).1 with
      | none => exact .none
      | some => exact .some rfl
    · rintro answer _ rfl
      exact (widenArgs _ h same).next fun h _ => operand h hspan rfl rfl _ _
  cases closing with
  | some => exact hresolved h .nil
  | none =>
    exact (commaList h (value hlv)).next fun h args => (expectOp h .rightParen rfl).next fun h _ => hresolved h args

theorem nameUse {name name' : Token} (h : Aligned K depth ts us) (same : name.Alike K.R name') :
    Beside K ts us (nameUse name) (nameUse name') (Inside (Aligned K depth) (Operand.Alike K.R)) := by
  obtain ⟨kind, text, hspan⟩ := same
  refine get.see ?_
  rintro s s' ⟨scopes, -, -⟩
  have found := scopes.find? text
  dsimp only
  generalize s.scopes.find? text = v at found
  generalize s'.scopes.find? text = w at found
  cases found with
  | none =>
    refine .ask fun ctx _ => ?_
    dsimp only
    cases ctx.env.constant? text with
    | none => exact .fail _ hspan
    | some i => exact literal _ h hspan
  | @some v w same => exact load h hspan (same.ty ▸ .mk ..)

theorem newObject (h : Aligned K (depth + 1) ts us) (hspan : K.R span span') :
    Beside K ts us (newObject span) (newObject span') (Inside (Aligned K (depth + 1)) (Operand.Alike K.R)) := by
  refine (expectIdent h).next fun h same => .ask fun ctx _ => ?_
  obtain ⟨_, text, hname⟩ := same
  dsimp only
  rw [ctx.class?_endSpan K.stop]
  cases ctx.class? text with
  | none => exact .fail _ hname
  | some cls =>
    refine (eatOp h .leftParen rfl).next fun h opening => ?_
    cases opening with
    | none => exact operand h hspan rfl rfl _ _
    | some _ => exact (expectOp h .rightParen rfl).next fun h _ => operand h hspan rfl rfl _ _

theorem primaryBody (hlv : lv.Balanced K) :
    Compiler.Balanced K (primaryBody lv) (Operand.Alike K.R) := fun {depth _ _} h => by
  obtain ⟨t, u, ts, us, rfl, rfl, same, more⟩ := h.heads
  refine skip ?_
  have alike := same
  obtain ⟨kind, text, hspan⟩ := same
  cases kind with
  | integer =>
    dsimp only
    cases Integer.ofLiteral? text with
    | none => exact .fail _ hspan
    | some i => exact literal _ more hspan
  | real =>
    dsimp only
    cases Binary32.ofText? text with
    | none => exact .fail _ hspan
    | some x => exact literal _ more hspan
  | string => exact literal _ more hspan
  | keyword word =>
    cases word with
    | trueWord => exact literal _ more hspan
    | falseWord => exact literal _ more hspan
    | nullWord => exact operand more hspan rfl rfl _ _
    | newWord => exact newObject more hspan
    | _ => exact .fail _ hspan
  | operator op =>
    cases op with
    | leftParen =>
      exact (hlv.expression more).next fun h he => (expectOp h .rightParen rfl).next fun h _ => pure ⟨h, he⟩
    | _ => exact .fail _ hspan
  | identifier =>
    have more : Aligned K (depth + 1) ts us := more
    refine (atOp (Region.heads more) .leftParen).see ?_
    rintro _ opens ⟨known, rfl⟩
    obtain ⟨t, u, ts, us, rfl, rfl, -⟩ := more.heads
    cases opens with
    | true => exact call hlv (more.behind rfl known.symm) alike
    | false => exact nameUse more alike
  | _ => exact .fail _ hspan

theorem listInit (hlv : lv.Balanced K) (ty : Ty) : Compiler.Balanced K (listInit lv ty) fun _ _ => True := by
  induction ty with
  | array elem ih =>
    intro depth ts us h
    refine (expectLeftBrace h).next fun h same => ?_
    obtain ⟨_, _, hspan⟩ := same
    refine (eatRightBrace h).bind ?_
    extract_lets listed listed'
    have hlisted {ts us : List Token} {elements elements' : List Instr} (h : Aligned K (depth + 1) ts us) :
        Beside K ts us (listed elements) (listed' elements') (Inside (Aligned K (depth + 1)) fun _ _ => True) := emit h
    rintro ts us _ _ (⟨_, _, rfl, rfl, h⟩ | ⟨rfl, rfl, h⟩)
    · exact hlisted h
    · refine (commaList (A := fun _ _ => True) h fun h => ?_).next fun h _ =>
        (expectRightBrace h).next fun h _ => hlisted h
      refine (atOp (Region.heads h) .leftBrace).see ?_
      rintro _ opens ⟨-, rfl⟩
      refine .ite (fun _ => ih h) fun _ => (value hlv h).next fun h he => ?_
      exact (coerce elem h he.span he).imp fun _ _ _ _ kept => ⟨kept.1, trivial⟩
  | _ => exact fun h => (expectLeftBrace h).next fun _ same => .fail _ (by cases same; assumption)

end Beside
end Tickwise
