import Tickwise.Proofs.Compile.Definitions
import Tickwise.Proofs.Compile.Jumps
import Tickwise.Proofs.Typing.Operands
set_option autoImplicit false

/-!
# What the compiler emits

Besides the types of its parts an instruction is as only some routines make it: a label comes from a constant
of the host, the one implicit conversion is to floats, what a compound assignment computes may be stored, and a
jump has a construct around it in its function to leave.
-/
namespace Tickwise

open Compile Compiler

/-- A label is the name of a constant, and the slot holds what the environment binds to it. -/
def Environment.Honest {ρ : Type} (env : Environment) (v : Slot ρ) : Prop :=
  ∀ name, v.label = some name → ∃ c, v.value = .int c ∧ env.constant? name = some c

def Form.Emitted (env : Environment) : Form Instr → Prop
  | .literal v => env.Honest v
  | .convert target _ => target = .float
  | .store place (some op) operandTy _ =>
    op.isComparison = false ∧ op.Suits operandTy ∧ place.ty.accepts operandTy = true
  | _ => True

/-- An instruction and its parts are as the compiler makes them. -/
inductive Instr.Emitted (env : Environment) : Instr → Prop
  | intro {i : Instr} (form : i.form.Emitted env) (parts : ∀ c ∈ i.children, Emitted env c) : Emitted env i

/-- An expression or a declaration as the compiler makes it. Its parts are the like. -/
inductive Instr.Straight (env : Environment) : Instr → Prop
  | intro {i : Instr} (form : i.form.Emitted env) (straight : i.form.isStraight = true)
      (parts : ∀ c ∈ i.children, Straight env c) : Straight env i

/-- A statement as the compiler makes it among constructs around it, innermost first: each jump in it leads to one
of those or to one beneath. -/
inductive Instr.Stated (env : Environment) : List Breakable → Instr → Prop
  | intro {bs : List Breakable} {i : Instr} (form : i.form.Emitted env) (jump : ∀ j, i.form.jump? = some j → j.Aims bs)
      (statements : ∀ c ∈ i.form.statements, Stated env (i.form.breakable?.toList ++ bs) c)
      (expressions : ∀ c ∈ i.form.expressions, Straight env c) : Stated env bs i

namespace Instr.Straight

variable {env : Environment} {bs : List Breakable} {i c : Instr}

theorem part (h : i.Straight env) (hc : c ∈ i.children) : c.Straight env := by
  cases h with
  | intro _ _ parts => exact parts c hc

/-- There is no jump in an expression, so it may stand among any constructs. -/
theorem stated (h : i.Straight env) : i.Stated env bs := by
  obtain ⟨form, straight, parts⟩ := h
  obtain ⟨jump, statements, expressions⟩ := Form.isStraight_cases straight
  refine .intro form (fun j hj => ?_) (fun c hc => ?_) fun c hc => ?_
  · rw [jump] at hj
    cases hj
  · rw [statements] at hc
    cases hc
  · rw [expressions] at hc
    exact parts c hc

theorem emitted (h : i.Straight env) : i.Emitted env := by
  induction h with
  | intro form _ _ ih => exact .intro form ih

end Instr.Straight

theorem Instr.Stated.emitted {env : Environment} {bs : List Breakable} {i : Instr} (h : i.Stated env bs) :
    i.Emitted env := by
  induction h with
  | intro form _ _ expressions ih =>
    refine .intro form fun c hc => ?_
    rcases Form.mem_children_iff.1 hc with hc | hc
    · exact ih c hc
    · exact (expressions c hc).emitted

namespace Instr.Emitted

variable {env : Environment} {i c : Instr}

theorem form (h : i.Emitted env) : i.form.Emitted env := by
  cases h with
  | intro form _ => exact form

theorem literal {v : Variable} (h : i.Emitted env) (form : i.form = .literal v) : env.Honest v := by
  have emitted := h.form
  rw [form] at emitted
  exact emitted

theorem part (h : i.Emitted env) (hc : c ∈ i.children) : c.Emitted env := by
  cases h with
  | intro _ parts => exact parts c hc

end Instr.Emitted

/-- In an environment and within loops and switches, innermost first, what a routine answers satisfies `Q`. -/
structure Emits {α : Type} (env : Environment) (bs : List Breakable) (c : Compiler α) (Q : α → Prop) : Prop where
  answers : ∀ {ctx s a s'}, ctx.env = env → ctx.breakables = bs → c ctx s = (some a, s') → Q a

namespace Emits

variable {α β σ : Type} {env : Environment} {bs bs' : List Breakable} {c : Compiler α} {P : α → Prop} {Q : β → Prop}

theorem pure {a : α} (h : P a) : Emits env bs (pure a) P :=
  ⟨fun _ _ hc => by cases hc; exact h⟩

theorem fail (cause : CompileError.Cause) (span : Span) : Emits env bs (fail cause span) P :=
  ⟨fun _ _ hc => by cases hc⟩

theorem bind {f : α → Compiler β} (first : Emits env bs c P) (second : ∀ a, P a → Emits env bs (f a) Q) :
    Emits env bs (c >>= f) Q := by
  refine ⟨fun same within hc => ?_⟩
  obtain ⟨a, s₁, hc, hf⟩ := some_of_bind hc
  exact (second a (first.answers same within hc)).answers same within hf

theorem next {f : α → Compiler β} (second : ∀ a, Emits env bs (f a) Q) : Emits env bs (c >>= f) Q :=
  bind (P := fun _ => True) ⟨fun _ _ _ => trivial⟩ fun a _ => second a

theorem map {f : α → β} (h : Emits env bs c P) (hf : ∀ a, P a → Q (f a)) : Emits env bs (f <$> c) Q :=
  h.bind fun a ha => pure (hf a ha)

theorem ite {q : Prop} [Decidable q] {d : Compiler α} (hc : q → Emits env bs c P) (hd : ¬ q → Emits env bs d P) :
    Emits env bs (if q then c else d) P := by
  split
  case isTrue h => exact hc h
  case isFalse h => exact hd h

theorem failBind (cause : CompileError.Cause) (span : Span) (f : α → Compiler β) :
    Emits env bs ((Compiler.fail cause span : Compiler α) >>= f) Q :=
  bind (P := fun _ => False) (fail cause span) fun _ h => h.elim

theorem ask {f : Context → Compiler β} (h : ∀ ctx, ctx.env = env → ctx.breakables = bs → Emits env bs (f ctx) Q) :
    Emits env bs ((MonadReader.read : Compiler Context) >>= f) Q := by
  refine ⟨fun {ctx _ _ _} same within hc => ?_⟩
  rw [bind_apply] at hc
  exact (h ctx same within).answers same within hc

theorem withReader {f : Context → Context} (same : ∀ ctx, (f ctx).env = ctx.env)
    (inner : ∀ ctx, ctx.breakables = bs → (f ctx).breakables = bs') (h : Emits env bs' c P) :
    Emits env bs (withReader f c) P :=
  ⟨fun {ctx _ _ _} env within hc => h.answers ((same ctx).trans env) (inner ctx within) hc⟩

theorem inFrame (isBlock : Bool) (h : Emits env bs c P) : Emits env bs (inFrame isBlock c) P := by
  refine ⟨fun {ctx s a s'} same within hc => ?_⟩
  unfold Compiler.inFrame at hc
  generalize hr : c ctx { s with scopes := s.scopes.push isBlock } = r at hc
  obtain ⟨a?, s₁⟩ := r
  cases hc
  exact h.answers same within hr

theorem loop {start : σ} {step : σ → Compiler (σ ⊕ α)} (I : σ → Prop) (h : I start)
    (hs : ∀ state, I state → Emits env bs (step state) (Sum.elim I P)) : Emits env bs (loop start step) P := by
  have iterated (turns : Nat) : ∀ {state}, I state → Emits env bs (iterate step turns state) P := by
    induction turns with
    | zero => exact fun _ => .next fun _ => .fail ..
    | succ turns ih =>
      intro state h
      refine (hs state h).bind fun r hr => ?_
      cases r with
      | inl state => exact ih hr
      | inr a => exact .pure hr
  exact .next fun _ => iterated _ h

theorem commaList (h : Emits env bs c P) : Emits env bs (commaList c) fun as => ∀ a ∈ as, P a := by
  refine .loop (fun as => ∀ a ∈ as, P a) nofun fun as has => h.bind fun a ha => .next fun _ => ?_
  have all : ∀ b ∈ a :: as, P b := List.forall_mem_cons.2 ⟨ha, has⟩
  exact .ite (fun _ => .pure all) fun _ => .pure fun b hb => all b (List.mem_reverse.1 hb)

theorem node {form : Form Instr} (span : Span) (plain : form.jump? = none) (emitted : form.Emitted env)
    (statements : ∀ c ∈ form.statements, c.Stated env (form.breakable?.toList ++ bs))
    (expressions : ∀ c ∈ form.expressions, c.Straight env) : Emits env bs (node span form) (·.Stated env bs) := by
  refine ⟨fun _ _ hc => ?_⟩
  cases hc
  refine .intro emitted (fun j hj => ?_) statements expressions
  cases plain.symm.trans hj

/-!
## Expressions
-/

/-- The instruction of an operand is as the compiler makes it. -/
def Made (env : Environment) (e : Operand) : Prop := e.instr.Straight env

/-- The index expressions of a place are as the compiler makes them. -/
def Led (env : Environment) (place : Place Instr) : Prop := ∀ i ∈ place.indices, i.Straight env

/-- The routines of a level answer what the compiler makes. -/
structure Routines (env : Environment) (lv : Level) : Prop where
  statement : ∀ {bs}, Emits env bs lv.statement (·.Stated env bs)
  expression : ∀ {bs}, Emits env bs lv.expression (Made env)
  ternary : ∀ {bs}, Emits env bs lv.ternary (Made env)
  binary : ∀ {bs} floor, Emits env bs (lv.binary floor) (Made env)
  unary : ∀ {bs}, Emits env bs lv.unary (Made env)
  primary : ∀ {bs}, Emits env bs lv.primary (Made env)

variable {lv : Level} {e left right : Operand} {place : Place Instr} {span : Span}

theorem straight {form : Form Instr} (span : Span) (emitted : form.Emitted env) (straight : form.isStraight = true)
    (parts : ∀ c ∈ form.children, c.Straight env) : Emits env bs (Compiler.node span form) (·.Straight env) :=
  ⟨fun _ _ hc => by cases hc; exact .intro emitted straight parts⟩

theorem operand {form : Form Instr} {ty : Ty} {constant : Option Variable} (emitted : form.Emitted env)
    (straight : form.isStraight = true) (parts : ∀ c ∈ form.children, c.Straight env) :
    Emits env bs (do return ⟨← Compiler.node span form, ty, constant⟩) (Made env) :=
  (Emits.straight span emitted straight parts).bind fun _ made => .pure made

theorem widen (h : Made env e) (target : Ty) : Emits env bs (Compiler.widen e target) (·.Straight env) :=
  .ite (fun _ => .straight _ rfl rfl (List.forall_mem_singleton.2 h)) fun _ => .pure h

theorem coerce (h : Made env e) (target : Ty) (span : Span) :
    Emits env bs (Compiler.coerce e target span) (·.Straight env) :=
  .next fun _ => .ite (fun _ => widen h target) fun _ => .fail _ _

theorem connect (span : Span) (connective : Connective) (hl : Made env left) (hr : Made env right) :
    Emits env bs (Compiler.connect span connective left right) (Made env) := by
  cases connective with
  | binary op =>
    refine .next fun ty => (widen hl ty).bind fun l hl => (widen hr ty).bind fun r hr => ?_
    exact operand trivial rfl (List.forall_mem_cons.2 ⟨hl, List.forall_mem_singleton.2 hr⟩)
  | logical isAnd =>
    refine .ite (fun _ => .fail _ _) fun _ => .ite (fun _ => .fail _ _) fun _ => ?_
    exact operand trivial rfl (List.forall_mem_cons.2 ⟨hl, List.forall_mem_singleton.2 hr⟩)

theorem value (hlv : Routines env lv) : Emits env bs (Compiler.value lv) (Made env) :=
  hlv.expression.bind fun _ made => .next fun _ => .pure made

theorem condition (hlv : Routines env lv) : Emits env bs (Compiler.condition lv) (·.Straight env) :=
  (value hlv).bind fun _ made => .ite (fun _ => .pure made) fun _ => .fail _ _

theorem integer (hlv : Routines env lv) (cause : CompileError.Cause) :
    Emits env bs (Compiler.integer lv cause) (·.Straight env) :=
  (value hlv).bind fun _ made => .ite (fun _ => .pure made) fun _ => .fail _ _

theorem led_of_load (h : Made env e) (form : e.instr.form = .load place) : Led env place := by
  intro i hi
  refine Instr.Straight.part h ?_
  rw [Instr.children, form]
  exact hi

theorem placeOf (h : Made env e) (span : Span) : Emits env bs (Compiler.placeOf e span) (Led env) := by
  unfold Compiler.placeOf
  split
  case h_1 place form => exact .pure (led_of_load h form)
  case h_2 => exact .fail ..

theorem assignment {op : Operator} (hp : Led env place) (hv : Made env e) :
    Emits env bs (Compiler.assignment op span place e) (Made env) := by
  have stored {op : Option BinaryOp} {operandTy : Ty} {v : Instr} (hv : v.Straight env)
      (emitted : (Form.store place op operandTy v).Emitted env) :
      Emits env bs (do return ⟨← Compiler.node span (.store place op operandTy v), place.ty, none⟩) (Made env) :=
    .operand emitted rfl (List.forall_mem_append.2 ⟨hp, List.forall_mem_singleton.2 hv⟩)
  refine .next fun _ => ?_
  split
  case isTrue => exact (coerce hv place.ty span).bind fun v hv => stored hv trivial
  case isFalse =>
    cases compound : compoundOp? op with
    | none => exact .failBind ..
    | some base =>
      refine bind (P := fun ty => operandType? base place.ty e.ty = some ty) ?_ fun operandTy ok =>
        .ite (fun accepts => ?_) fun _ => .failBind ..
      · refine .ite (fun _ => .fail ..) fun _ => ?_
        split
        case h_1 ty ok => exact .pure ok
        case h_2 => exact .fail ..
      · exact stored hv ⟨compoundOp?_arithmetic compound, suits_of_operandType? ok, accepts⟩

theorem expressionBody (hlv : Routines env lv) : Emits env bs (Compiler.expressionBody lv) (Made env) := by
  refine hlv.ternary.bind fun target made => .next fun token? => ?_
  split
  · refine .ite (fun _ => .next fun _ => (placeOf made _).bind fun place led => ?_) fun _ => .pure made
    exact hlv.expression.bind fun e made => assignment led made
  · exact .pure made

theorem ternaryBody (hlv : Routines env lv) : Emits env bs (Compiler.ternaryBody lv) (Made env) := by
  refine (hlv.binary 0).bind fun cond hc => .next fun question? => ?_
  split
  case h_1 => exact .pure hc
  case h_2 question =>
    refine .ite (fun _ => .fail _ _) fun _ => (value hlv).bind fun yes hy => .next fun _ =>
      hlv.ternary.bind fun no hn => .next fun _ => ?_
    split
    case h_1 => exact .fail _ _
    case h_2 ty _ =>
      refine (widen hy ty).bind fun y hy => (widen hn ty).bind fun n hn => operand trivial rfl ?_
      exact List.forall_mem_cons.2 ⟨hc, List.forall_mem_cons.2 ⟨hy, List.forall_mem_singleton.2 hn⟩⟩

theorem binaryBody (hlv : Routines env lv) (floor : Nat) :
    Emits env bs (Compiler.binaryBody lv floor) (Made env) := by
  refine hlv.unary.bind fun first hf => .loop (fun state => Made env state.1) hf fun (left, _) hl => .next fun b? => ?_
  split
  case h_1 => exact .pure hl
  case h_2 span b =>
    refine .ite (fun _ => .fail _ _) fun _ => (hlv.binary b.rightFloor).bind fun right hr => ?_
    exact (connect span b.connective hl hr).bind fun _ made => .pure made

theorem stepPlace {up before : Bool} (h : Made env e) :
    Emits env bs (Compiler.stepPlace span e up before) (Made env) :=
  (placeOf h span).bind fun _ led => .ite (fun _ => operand trivial rfl led) fun _ => .fail _ _

theorem led_access {access : Access Instr} {ty : Ty} (hp : Led env place)
    (indices : ∀ i elem, access = .index i elem → i.Straight env) :
    Led env { place with path := place.path ++ [access], ty := ty } := by
  intro i hi
  unfold Place.indices at hi
  rw [List.filterMap_append] at hi
  rcases List.mem_append.1 hi with hi | hi
  · exact hp i hi
  · cases access with
    | index j elem =>
      cases List.mem_singleton.1 hi
      exact indices i elem rfl
    | field k => cases hi

theorem access (hlv : Routines env lv) (token : Token) (hp : Led env place) :
    Emits env bs (Compiler.access lv token e place) (Made env) := by
  refine .next fun _ => ?_
  have loaded (place : Place Instr) (led : Led env place) :
      Emits env bs (do return ⟨← Compiler.node e.instr.span (.load place), place.ty, none⟩) (Made env) :=
    operand trivial rfl led
  split
  · refine bind (P := Led env) ?_ loaded
    unfold Compiler.indexAccess
    split
    case h_1 => exact .fail _ _
    case h_2 =>
      refine (integer hlv _).bind fun index made => .next fun _ => .pure (led_access hp fun _ _ same => ?_)
      cases same
      exact made
  · refine bind (P := Led env) ?_ loaded
    refine .next fun ctx => ?_
    split
    case h_1 => exact .fail _ _
    case h_2 =>
      refine .next fun field => ?_
      split
      case h_1 => exact .fail _ _
      case h_2 => exact .pure (led_access hp nofun)

theorem accesses (hlv : Routines env lv) : Emits env bs (Compiler.accesses lv) (Made env) := by
  refine hlv.primary.bind fun first hf => .loop (Made env) hf fun e he => .next fun token? => ?_
  split
  case h_1 => exact .pure he
  case h_2 token =>
    split
    case h_1 place form =>
      refine .ite (fun _ => ?_) fun _ => .ite (fun _ => .next fun _ => ?_) fun _ => .pure he
      · exact (access hlv token (led_of_load he form)).bind fun _ made => .pure made
      · exact (stepPlace he).bind fun _ made => .pure made
    case h_2 => exact .ite (fun _ => .fail _ _) fun _ => .ite (fun _ => .fail _ _) fun _ => .pure he

theorem unaryOperation (hlv : Routines env lv) (span : Span) (op : UnaryOp) :
    Emits env bs (Compiler.unaryOperation lv span op) (Made env) :=
  .next fun _ => hlv.unary.bind fun _ made =>
    .ite (fun _ => operand trivial rfl (List.forall_mem_singleton.2 made)) fun _ => .fail _ _

theorem unaryBody (hlv : Routines env lv) : Emits env bs (Compiler.unaryBody lv) (Made env) := by
  refine .next fun token? => ?_
  split
  · exact unaryOperation hlv _ _
  · exact unaryOperation hlv _ _
  · exact unaryOperation hlv _ _
  · exact .next fun _ => hlv.unary.bind fun _ made => .ite (fun _ => .pure made) fun _ => .fail _ _
  · exact .next fun _ => hlv.unary.bind fun _ made => stepPlace made
  · exact .next fun _ => hlv.unary.bind fun _ made => stepPlace made
  · exact accesses hlv

theorem literal (span : Span) {v : Variable} (h : v.label = none) :
    Emits env bs (Compiler.literal span v) (Made env) := by
  refine operand (fun name hn => ?_) rfl nofun
  rw [h] at hn
  cases hn

theorem widenArgs {args : List Operand} (targets : List (Option Ty)) (h : ∀ a ∈ args, Made env a) :
    Emits env bs (Compiler.widenArgs args targets) fun is => ∀ i ∈ is, i.Straight env := by
  induction args generalizing targets with
  | nil => exact .pure nofun
  | cons arg args ih =>
    obtain ⟨first, rest⟩ := List.forall_mem_cons.1 h
    cases targets with
    | nil => exact .pure nofun
    | cons target? targets =>
      have converted (i : Instr) (made : i.Straight env) :
          Emits env bs (do return i :: (← Compiler.widenArgs args targets)) fun is => ∀ i ∈ is, i.Straight env :=
        (ih targets rest).bind fun _ all => .pure (List.forall_mem_cons.2 ⟨made, all⟩)
      cases target? with
      | some target => exact (widen first target).bind converted
      | none => exact converted arg.instr first

theorem call (hlv : Routines env lv) (name : Token) : Emits env bs (Compiler.call lv name) (Made env) := by
  have resolved (args : List Operand) (h : ∀ a ∈ args, Made env a) : Emits env bs (do
      let r ← onScopes? fun s => s.resolveCall name.text name.span (args.map Operand.ty)
      let instrs ← Compiler.widenArgs args r.conversions
      return ⟨← Compiler.node name.span (.call r.callee instrs r.ret), r.ret, none⟩) (Made env) :=
    .next fun r => (widenArgs r.conversions h).bind fun _ all => operand trivial rfl all
  refine .next fun _ => .next fun closing? => ?_
  split
  · exact resolved [] nofun
  · exact (commaList (value hlv)).bind fun args h => .next fun _ => resolved args h

/-- The label of a constant of the host goes with the integer that the host binds to it. -/
theorem nameUse (name : Token) : Emits env bs (Compiler.nameUse name) (Made env) := by
  refine .next fun s => ?_
  split
  case h_1 => exact operand trivial rfl nofun
  case h_2 =>
    refine .ask fun ctx same _ => ?_
    split
    case h_1 c bound =>
      refine operand (fun n hn => ?_) rfl nofun
      cases hn
      exact ⟨c, rfl, same ▸ bound⟩
    case h_2 => exact .fail _ _

theorem newObject (span : Span) : Emits env bs (Compiler.newObject span) (Made env) := by
  refine .next fun name => .next fun ctx => ?_
  split
  case h_1 => exact .fail _ _
  case h_2 cls _ =>
    have made : Emits env bs (do return ⟨← Compiler.node span (.new cls), .named cls.name, none⟩) (Made env) :=
      operand trivial rfl nofun
    refine .next fun _ => ?_
    split
    · exact .next fun _ => made
    · exact made

theorem primaryBody (hlv : Routines env lv) : Emits env bs (Compiler.primaryBody lv) (Made env) := by
  refine .next fun token? => ?_
  cases token? with
  | none => exact .next fun _ => .fail _ _
  | some token =>
    dsimp only
    split
    · split
      · exact literal _ rfl
      · exact .fail _ _
    · split
      · exact literal _ rfl
      · exact .fail _ _
    · exact literal _ rfl
    · exact literal _ rfl
    · exact literal _ rfl
    · exact operand (fun _ hn => by cases hn) rfl nofun
    · exact newObject _
    · exact hlv.expression.bind fun _ made => .next fun _ => .pure made
    · exact .next fun _ => .ite (fun _ => call hlv token) fun _ => nameUse token
    · exact .fail _ _

theorem listInit (hlv : Routines env lv) (ty : Ty) : Emits env bs (Compiler.listInit lv ty) (·.Straight env) := by
  induction ty with
  | array elem ih =>
    unfold Compiler.listInit
    refine .next fun opening => .next fun closing? => ?_
    split
    · exact straight _ trivial rfl fun i hi => absurd hi List.not_mem_nil
    · refine (commaList (.next fun inner => .ite (fun _ => ih) fun _ => ?_)).bind fun elements all =>
        .next fun _ => straight _ trivial rfl all
      exact (value hlv).bind fun _ made => coerce made elem _
  | _ =>
    unfold Compiler.listInit
    exact .next fun _ => .fail _ _

/-!
## Statements
-/

theorem statementsToBrace (hlv : Routines env lv) :
    Emits env bs (Compiler.statementsToBrace lv) fun is => ∀ i ∈ is, i.Stated env bs := by
  refine .loop (fun is => ∀ i ∈ is, i.Stated env bs) nofun fun is h => .next fun _ =>
    .ite (fun _ => .pure fun i hi => h i (List.mem_reverse.1 hi)) fun _ => .next fun _ =>
      .ite (fun _ => .next fun _ => .fail _ _) fun _ => ?_
  exact hlv.statement.bind fun _ made => .pure (List.forall_mem_cons.2 ⟨made, h⟩)

theorem block (hlv : Routines env lv) (isScoped : Bool) :
    Emits env bs (Compiler.block lv isScoped) (·.Stated env bs) := by
  refine .next fun opening => ?_
  split
  · exact (inFrame true (statementsToBrace hlv)).bind fun _ all => node _ rfl trivial all nofun
  · exact (statementsToBrace hlv).bind fun _ all => node _ rfl trivial all nofun

theorem dimensions (hlv : Routines env lv) (base : Ty) :
    Emits env bs (Compiler.dimensions lv base) fun r => ∀ i ∈ r.2, i.Straight env := by
  refine .loop (fun r => ∀ i ∈ r.2.1, i.Straight env) nofun fun (_, sizes, _) h => .next fun opening? => ?_
  split
  case h_1 => exact .pure h
  case h_2 opening =>
    refine .next fun closing => .ite (fun _ => .next fun _ => .pure h) fun _ => .ite (fun _ => .fail _ _) fun _ => ?_
    refine (integer hlv _).bind fun _ made => .next fun _ => .next fun _ => .pure ?_
    exact List.forall_mem_append.2 ⟨h, List.forall_mem_singleton.2 made⟩

theorem initializer (hlv : Routines env lv) (ty : Ty) :
    Emits env bs (Compiler.initializer lv ty) fun init => ∀ i ∈ init, i.Straight env := by
  have given {i : Instr} (made : i.Straight env) : ∀ j ∈ some i, j.Straight env :=
    fun j hj => Option.mem_some.1 hj ▸ made
  refine .next fun assign? => ?_
  split
  case h_1 => exact .pure nofun
  case h_2 assign =>
    refine .next fun _ => .ite (fun _ => ?_) fun _ => (value hlv).bind fun _ made => ?_
    · exact (listInit hlv ty).bind fun _ made => .pure (given made)
    · exact (coerce made ty assign.span).bind fun _ made => .pure (given made)

theorem declaration (hlv : Routines env lv) : Emits env bs (Compiler.declaration lv) (·.Straight env) := by
  refine .next fun (span, base) => (commaList ?_).bind fun _ all => straight span trivial rfl all
  refine .next fun name => (dimensions hlv base).bind fun (ty, sizes) hs => (initializer hlv ty).bind fun _ hi =>
    .next fun _ => straight _ trivial rfl ?_
  exact List.forall_mem_append.2 ⟨hs, fun i mem => hi i (Option.mem_toList.1 mem)⟩

theorem governed (hlv : Routines env lv) : Emits env bs (Compiler.governed lv) (·.Stated env bs) :=
  .next fun _ => .ite (fun _ => .next fun _ => .fail _ _) fun _ => hlv.statement

theorem loopBody (hlv : Routines env lv) (label : Option String) :
    Emits env bs (Compiler.loopBody lv label) (·.Stated env (⟨label, true⟩ :: bs)) :=
  .withReader (fun _ => rfl) (fun _ within => congrArg (List.cons _) within) (governed hlv)

theorem parenCondition (hlv : Routines env lv) : Emits env bs (Compiler.parenCondition lv) (·.Straight env) :=
  .next fun _ => (condition hlv).bind fun _ made => .next fun _ => .pure made

theorem ifStatement (hlv : Routines env lv) (span : Span) :
    Emits env bs (Compiler.ifStatement lv span) (·.Stated env bs) := by
  refine (parenCondition hlv).bind fun cond hc => (governed hlv).bind fun yes hy => .next fun _ => ?_
  have made (no : Option Instr) (hn : ∀ i ∈ no.toList, i.Stated env bs) :
      Emits env bs (Compiler.node span (.branch cond yes no)) (·.Stated env bs) :=
    node _ rfl trivial (List.forall_mem_cons.2 ⟨hy, hn⟩) (List.forall_mem_singleton.2 hc)
  split
  · exact (Emits.map (Q := fun no => ∀ i ∈ no.toList, i.Stated env bs) (governed hlv) fun _ made =>
      List.forall_mem_singleton.2 made).bind made
  · exact made none nofun

theorem whileStatement (hlv : Routines env lv) (label : Option String) (span : Span) :
    Emits env bs (Compiler.whileStatement lv label span) (·.Stated env bs) :=
  (parenCondition hlv).bind fun _ hc => (loopBody hlv label).bind fun _ hb =>
    node _ rfl trivial (List.forall_mem_singleton.2 hb) (List.forall_mem_singleton.2 hc)

theorem doStatement (hlv : Routines env lv) (label : Option String) (span : Span) :
    Emits env bs (Compiler.doStatement lv label span) (·.Stated env bs) :=
  (loopBody hlv label).bind fun _ hb => .next fun _ => (parenCondition hlv).bind fun _ hc => .next fun _ =>
    node _ rfl trivial (List.forall_mem_singleton.2 hb) (List.forall_mem_singleton.2 hc)

theorem expressionList (hlv : Routines env lv) (stop : Operator) :
    Emits env bs (Compiler.expressionList lv stop) fun is => ∀ i ∈ is, i.Straight env :=
  .next fun _ => .ite (fun _ => .pure nofun) fun _ => .commaList (hlv.expression.bind fun _ made => .pure made)

theorem forStatement (hlv : Routines env lv) (label : Option String) (span : Span) :
    Emits env bs (Compiler.forStatement lv label span) (·.Stated env bs) := by
  refine inFrame true (.next fun _ => .next fun declares => ?_)
  have closed (init : List Instr) (cond : Option Instr) (hi : ∀ i ∈ init, i.Straight env)
      (hc : ∀ i ∈ cond.toList, i.Straight env) : Emits env bs (do
        let _ ← Compiler.expectOp .semicolon .semicolon
        let next ← Compiler.expressionList lv .rightParen
        let _ ← Compiler.expectOp .rightParen .closeParen
        let body ← Compiler.loopBody lv label
        Compiler.node span (.forLoop label init cond next body)) (·.Stated env bs) := by
    refine .next fun _ => (expressionList hlv _).bind fun _ hn => .next fun _ => (loopBody hlv label).bind fun _ hb =>
      node _ rfl trivial (List.forall_mem_singleton.2 hb) ?_
    exact List.forall_mem_append.2 ⟨List.forall_mem_append.2 ⟨hi, hc⟩, hn⟩
  have continued (init : List Instr) (hi : ∀ i ∈ init, i.Straight env) : Emits env bs (do
      let _ ← Compiler.expectOp .semicolon .semicolon
      let cond ← if ← Compiler.atOp .semicolon then Pure.pure none else some <$> Compiler.condition lv
      let _ ← Compiler.expectOp .semicolon .semicolon
      let next ← Compiler.expressionList lv .rightParen
      let _ ← Compiler.expectOp .rightParen .closeParen
      let body ← Compiler.loopBody lv label
      Compiler.node span (.forLoop label init cond next body)) (·.Stated env bs) := by
    refine .next fun _ => .next fun endless => ?_
    split
    · exact closed init none hi nofun
    · exact (Emits.map (Q := fun cond => ∀ i ∈ cond.toList, i.Straight env) (condition hlv) fun _ made =>
        List.forall_mem_singleton.2 made).bind fun cond hc => closed init cond hi hc
  split
  · exact (declaration hlv).bind fun d hd => continued [d] (List.forall_mem_singleton.2 hd)
  · exact (expressionList hlv _).bind continued

theorem switchBody (hlv : Routines env lv) :
    Emits env bs (Compiler.switchBody lv) fun r => ∀ i ∈ r.2, i.Stated env bs := by
  refine .loop (fun r => ∀ i ∈ r.2, i.Stated env bs) nofun fun (cases, latestFirst) h => .next fun _ =>
    .ite (fun _ => .pure fun i hi => h i (List.mem_reverse.1 hi)) fun _ => .next fun caseWord? => ?_
  split
  · exact .next fun _ => .ite (fun _ => .fail _ _) fun _ => .next fun _ => .pure h
  · refine .next fun defaultWord? => ?_
    split
    · exact .ite (fun _ => .fail _ _) fun _ => .next fun _ => .pure h
    · exact .next fun _ => .ite (fun _ => .next fun _ => .fail _ _) fun _ =>
        hlv.statement.bind fun _ made => .pure (List.forall_mem_cons.2 ⟨made, h⟩)

theorem switchStatement (hlv : Routines env lv) (label : Option String) (span : Span) :
    Emits env bs (Compiler.switchStatement lv label span) (·.Stated env bs) := by
  refine .next fun _ => (integer hlv _).bind fun value hv => .next fun _ => .next fun _ => ?_
  refine bind (inFrame true (.withReader (fun _ => rfl) (fun _ within => congrArg (List.cons _) within) (switchBody hlv)))
    fun (cases, body) hb => ?_
  exact node _ rfl trivial hb (List.forall_mem_singleton.2 hv)

theorem jump (isBreak : Bool) (span : Span) : Emits env bs (Compiler.jump isBreak span) (·.Stated env bs) := by
  refine .next fun word? => .ask fun ctx _ within => ?_
  rw [within]
  split
  · exact .fail _ _
  · exact .fail _ _
  case h_3 b found =>
    refine .ite (fun leads => .next fun _ => ?_) fun _ => .fail _ _
    have aims : Jump.Aims ⟨isBreak, _⟩ bs := ⟨b, found, leads⟩
    refine ⟨fun _ _ hc => ?_⟩
    cases isBreak <;> cases hc <;> exact .intro trivial (fun j hj => Option.some.inj hj ▸ aims) nofun nofun

theorem returnStatement (hlv : Routines env lv) (span : Span) :
    Emits env bs (Compiler.returnStatement lv span) (·.Stated env bs) := by
  refine .next fun ctx => .next fun bare => ?_
  have returned (result : Option Instr) (hr : ∀ i ∈ result.toList, i.Straight env) : Emits env bs (do
      let _ ← Compiler.expectOp .semicolon .semicolon
      Compiler.node span (.ret result)) (·.Stated env bs) := by
    refine .next fun _ => node _ rfl ?_ nofun hr
    cases result <;> trivial
  split
  · split
    · exact returned none nofun
    · exact .failBind ..
  · split
    · exact .failBind ..
    · exact (Emits.map (Q := fun result => ∀ i ∈ result.toList, i.Straight env)
        ((value hlv).bind fun _ made => coerce made _ span) fun _ made => List.forall_mem_singleton.2 made).bind returned

theorem tryStatement (hlv : Routines env lv) (span : Span) :
    Emits env bs (Compiler.tryStatement lv span) (·.Stated env bs) := by
  let clauses (cs : List (Catch Instr)) : Prop := ∀ c ∈ cs, c.filter.Straight env ∧ c.handler.Stated env bs
  have clause (span : Span) : Emits env bs (Compiler.catchClause lv span) fun c =>
      c.filter.Straight env ∧ c.handler.Stated env bs :=
    .next fun _ => (value hlv).bind fun _ hf => .ite (fun _ => .fail _ _) fun _ => .next fun _ =>
      (block hlv true).bind fun _ hh => .pure ⟨hf, hh⟩
  refine (block hlv true).bind fun body hb => bind (.loop (P := clauses) clauses nofun ?read) fun cs h =>
    .ite (fun _ => .next fun _ => .next fun _ => .fail ..) fun _ => ?_
  case read =>
    refine fun latestFirst h => .next fun word? => ?_
    cases word? with
    | some word => exact (clause _).bind fun c hc => .pure (List.forall_mem_cons.2 ⟨hc, h⟩)
    | none => exact .pure fun c hc => h c (List.mem_reverse.1 hc)
  refine node _ rfl trivial (List.forall_mem_cons.2 ⟨hb, fun i hi => ?_⟩) fun i hi => ?_
  · obtain ⟨c, hc, rfl⟩ := List.mem_map.1 hi
    exact (h c hc).2
  · obtain ⟨c, hc, rfl⟩ := List.mem_map.1 hi
    exact (h c hc).1

theorem breakable? (hlv : Routines env lv) {label : Option String} {token : Token} {c : Compiler Instr}
    (h : Compiler.breakable? lv label token = some c) : Emits env bs c (·.Stated env bs) := by
  unfold Compiler.breakable? at h
  split at h
  · cases h
    exact whileStatement hlv _ _
  · cases h
    exact doStatement hlv _ _
  · cases h
    exact forStatement hlv _ _
  · cases h
    exact switchStatement hlv _ _
  · cases h

theorem wordStatement? (hlv : Routines env lv) {token : Token} {c : Compiler Instr}
    (h : Compiler.wordStatement? lv token = some c) : Emits env bs c (·.Stated env bs) := by
  unfold Compiler.wordStatement? at h
  split at h
  · cases h
    exact ifStatement hlv _
  · cases h
    exact jump _ _
  · cases h
    exact jump _ _
  · cases h
    exact returnStatement hlv _
  · cases h
    exact tryStatement hlv _
  · cases h
    exact (integer hlv _).bind fun _ made => .next fun _ =>
      node _ rfl trivial nofun (List.forall_mem_singleton.2 made)
  · exact breakable? hlv h

theorem statementBody (hlv : Routines env lv) : Emits env bs (Compiler.statementBody lv) (·.Stated env bs) := by
  refine .next fun token? => ?_
  split
  case h_1 => exact .next fun _ => .fail _ _
  case h_2 token =>
    refine .ite (fun _ => block hlv true) fun _ =>
      .ite (fun _ => .next fun _ => node _ rfl trivial nofun nofun) fun _ => ?_
    split
    case h_1 c h => exact .next fun _ => wordStatement? hlv h
    case h_2 =>
      refine .next fun _ => .ite (fun _ => .next fun _ => .next fun _ => .next fun token? => ?_) fun _ => ?_
      · split
        case h_1 c h =>
          obtain ⟨token, _, h⟩ := Option.bind_eq_some_iff.1 h
          exact .next fun _ => breakable? hlv h
        case h_2 => exact .next fun _ => .fail _ _
      · refine .next fun declares => ?_
        split
        · exact (declaration hlv).bind fun _ made => .next fun _ => .pure made.stated
        · exact (Emits.map (Q := (·.Straight env)) hlv.expression fun _ made => made).bind fun _ made =>
            .next fun _ => .pure made.stated

theorem routines_ofRoom (room : Nat) : Routines env (Level.ofRoom room) := by
  induction room with
  | zero =>
    have tooDeep {bs : List Breakable} {α : Type} {P : α → Prop} : Emits env bs (do Compiler.fail .tooDeep (← here)) P :=
      .next fun _ => .fail _ _
    exact ⟨tooDeep, tooDeep, tooDeep, fun _ => tooDeep, tooDeep, tooDeep⟩
  | succ room ih =>
    exact ⟨statementBody ih, inFrame false (expressionBody ih), inFrame false (ternaryBody ih),
      fun floor => inFrame false (binaryBody ih floor), inFrame false (unaryBody ih), inFrame false (primaryBody ih)⟩

theorem functionBody (h : Header) : Emits env bs (Compiler.functionBody h) (·.body.Stated env bs) :=
  .next fun _ => inFrame true (.next fun _ => (block (routines_ofRoom maxNesting) false).bind fun _ made => .pure made)

end Emits

theorem forall_of_compileBodies {ctx : Context} {P : Function → Prop} (made : ∀ header, Emits ctx.env [] (functionBody header) P)
    {headers : List Header} {s s' : State} {fs : List Function} (h : compileBodies ctx headers s = .ok (fs, s')) :
    ∀ f ∈ fs, P f := by
  induction headers generalizing s fs with
  | nil =>
    cases h
    nofun
  | cons header headers ih =>
    unfold compileBodies at h
    split at h
    case h_1 => cases h
    case h_2 f s₁ answer =>
      unfold compileBody at answer
      split at answer
      case h_2 => cases answer
      case h_1 f' s₂ body =>
        cases answer
        cases rest : compileBodies ctx headers s₁ with
        | error e =>
          rw [rest] at h
          cases h
        | ok r =>
          rw [rest] at h
          cases h
          have same : Context.env { ctx with ret := header.ret, breakables := [] } = ctx.env := rfl
          exact List.forall_mem_cons.2 ⟨(made header).answers same rfl body, ih rest⟩

theorem stated_of_compileBodies {ctx : Context} {headers : List Header} {s s' : State} {fs : List Function}
    (h : compileBodies ctx headers s = .ok (fs, s')) : ∀ f ∈ fs, f.body.Stated ctx.env [] :=
  forall_of_compileBodies (fun header => .functionBody header) h

theorem Program.stated_ofTokens {id : String} {env : Environment} {tokens : List Token} {p : Program}
    (h : Program.ofTokens id env tokens = .ok p) : p.env = env ∧ ∀ f ∈ p.functions, f.body.Stated env [] := by
  obtain ⟨_, fs, s, bodies, rfl⟩ := Program.compiled_of_ofTokens h
  exact ⟨rfl, stated_of_compileBodies bodies⟩

theorem Program.emitted_ofTokens {id : String} {env : Environment} {tokens : List Token} {p : Program}
    (h : Program.ofTokens id env tokens = .ok p) : p.env = env ∧ ∀ f ∈ p.functions, f.body.Emitted env :=
  (stated_ofTokens h).imp_right fun stated f hf => (stated f hf).emitted

end Tickwise
