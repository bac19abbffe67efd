import Tickwise.Compile.Statement
import Tickwise.Proofs.Compile.Building
import Tickwise.Proofs.Typing.Calls
set_option autoImplicit false

/-!
# Built expressions

The routines for expressions number the instructions that they answer one after the other. Those that they
build and give up, such as the loads in front of an access, keep their parts.
-/
namespace Tickwise

open Compile Compiler

/-- The instruction of an operand was made since, and nothing was declared. -/
def Compile.Operand.Formed (K : Setting) (m : Next) (_ : Nat) (m' : Next) (e : Operand) : Prop :=
  Tickwise.Formed K m m' e.instr.all

theorem Compile.Operand.Formed.ranged {K : Setting} {m m' : Next} {k : Nat} {e : Operand} (h : e.Formed K m k m') :
    K.span e.instr.span := by
  have made : Tickwise.Formed K m m' (e.instr.all ++ []) := by rwa [List.append_nil]
  exact Tickwise.Formed.ranged made

/-- The index expressions of a place were made since, and its variable was declared in the function. -/
structure Place.Formed (K : Setting) (m : Next) (_ : Nat) (m' : Next) (place : Place Instr) : Prop where
  indices : Tickwise.Formed K m m' (place.indices.flatMap Instr.all)
  root : K.Declares m' place.root

/-- The routines of a level build what they answer. -/
structure Level.Built (K : Setting) (lv : Level) : Prop where
  statement : ∀ d k m, Builds K (d + 1) k m lv.statement fun k' m' i => k' < k ∧ Made K m m' i.all
  expression : ∀ d k m, Builds K d k m lv.expression (Operand.Formed K m)
  ternary : ∀ d k m, Builds K d k m lv.ternary (Operand.Formed K m)
  binary : ∀ floor d k m, Builds K d k m (lv.binary floor) (Operand.Formed K m)
  unary : ∀ d k m, Builds K d k m lv.unary (Operand.Formed K m)
  primary : ∀ d k m, Builds K d k m lv.primary (Operand.Formed K m)

namespace Formed

variable {K : Setting} {m m₁ : Next} {A B C : List Instr} {form : Form Instr} {span : Span}

theorem rotate (h : Formed K m m₁ (A ++ B)) : Formed K m m₁ (B ++ A) := h.perm List.perm_append_comm

theorem swap (h : Formed K m m₁ (A ++ (B ++ C))) : Formed K m m₁ (B ++ (A ++ C)) :=
  h.perm (List.perm_append_comm_assoc A B C)

theorem root {place : Place Instr} {i : Instr} (h : Formed K m m₁ i.all) (hp : i.form = .load place) :
    K.Declares m₁ place.root := by
  rw [Instr.all_eq] at h
  have regular := (h.regular i List.mem_cons_self).2
  rw [hp] at regular
  exact regular

theorem load {place : Place Instr} {i : Instr} {k : Nat} (h : Formed K m m₁ i.all) (hp : i.form = .load place) :
    place.Formed K m k m₁ := by
  refine ⟨?_, h.root hp⟩
  have parts := (show Formed K m m₁ (i.all ++ []) by rwa [List.append_nil]).prune (by rw [Instr.declared?, hp])
  rw [List.append_nil, Instr.children, hp] at parts
  exact parts

end Formed

namespace Builds

variable {α : Type} {K : Setting} {d j k : Nat} {m m₀ : Next} {Q : Nat → Next → α → Prop} {lv : Level}
  {e left right : Operand} {place : Place Instr} {span : Span} {L : List Instr}

/-- A new instruction without a declaration. -/
theorem form {form : Form Instr} (hspan : K.span span) (parts : Formed K m₀ m (form.children.flatMap Instr.all ++ L))
    (plain : (Instr.mk m.node span form).declared? = none) (regular : form.Regular K m) :
    Builds K d k m (Compiler.node span form) fun k' m' i => k' = k ∧ Formed K m₀ m' (i.all ++ L) := by
  refine (Builds.node span form).imp ?_
  rintro k' m' i _ ⟨rfl, rfl, rfl⟩
  exact ⟨rfl, parts.grow hspan plain regular⟩

theorem operand {form : Form Instr} {ty : Ty} {constant : Option Variable} (hspan : K.span span)
    (parts : Formed K m₀ m (form.children.flatMap Instr.all))
    (plain : (Instr.mk m.node span form).declared? = none) (regular : form.Regular K m) :
    Builds K d k m (do return ⟨← Compiler.node span form, ty, constant⟩) (Operand.Formed K m₀) := by
  rw [← List.append_nil (form.children.flatMap Instr.all)] at parts
  refine (Builds.form hspan parts plain regular).bind fun k' m' i _ ⟨_, made⟩ => pure ?_
  rw [List.append_nil] at made
  exact made

theorem nonVoid {f : Unit → Compiler α} (hspan : K.span e.instr.span) (h : Builds K d k m (f ()) Q) :
    Builds K d k m (Compiler.nonVoid e >>= f) Q := by
  unfold Compiler.nonVoid
  split
  · exact .failBind _ hspan
  · exact .pureBind h

theorem widen (target : Ty) (h : Formed K m₀ m (e.instr.all ++ L)) :
    Builds K d k m (Compiler.widen e target) fun _ m' i => Formed K m₀ m' (i.all ++ L) := by
  have parts : Formed K m₀ m ((Form.convert .float e.instr).children.flatMap Instr.all ++ L) := by
    change Formed K m₀ m ([e.instr].flatMap Instr.all ++ L)
    rwa [List.flatMap_singleton]
  exact .ite (fun _ => (form h.ranged parts rfl trivial).imp fun _ _ _ _ h => h.2) fun _ => pure h

theorem coerce (target : Ty) (hspan : K.span span) (h : Formed K m₀ m (e.instr.all ++ L)) :
    Builds K d k m (Compiler.coerce e target span) fun _ m' i => Formed K m₀ m' (i.all ++ L) :=
  .nonVoid h.ranged (.ite (fun _ => widen target h) fun _ => .fail _ hspan)

theorem operandType (op : BinaryOp) (left right : Ty) (hspan : K.span span) :
    Builds K d k m (Compiler.operandType op left right span) (Kept m fun k' _ => k' = k ∧ True) := by
  refine .ite (fun _ => .fail _ hspan) fun _ => ?_
  split
  · exact keep ⟨rfl, trivial⟩
  · exact .fail _ hspan

theorem connect (hspan : K.span span) (connective : Connective)
    (h : Formed K m₀ m (left.instr.all ++ right.instr.all)) :
    Builds K d k m (Compiler.connect span connective left right) (Operand.Formed K m₀) := by
  have made {k : Nat} {m : Next} {l r : Instr} {form : Form Instr} {ty : Ty} {constant : Option Variable}
      (h : Formed K m₀ m (l.all ++ r.all)) (parts : form.children = [l, r])
      (plain : ∀ n, (Instr.mk n span form).declared? = none) (regular : form.Regular K m) :
      Builds K d k m (do return ⟨← Compiler.node span form, ty, constant⟩) (Operand.Formed K m₀) := by
    refine operand hspan ?_ (plain _) regular
    rw [parts]
    simpa using h
  cases connective with
  | binary op =>
    refine (operandType _ _ _ hspan).see fun ty _ => (widen ty h).bind fun _ m₁ l _ hl =>
      (widen ty hl.rotate).bind fun _ m₂ r _ hr => ?_
    exact made hr.rotate rfl (fun _ => rfl) trivial
  | logical isAnd =>
    have hr := h.rotate
    exact .ite (fun _ => .fail _ h.ranged) fun _ => .ite (fun _ => .fail _ hr.ranged) fun _ =>
      made h rfl (fun _ => rfl) trivial

theorem value (hlv : lv.Built K) : Builds K d k m (Compiler.value lv) (Operand.Formed K m) :=
  (hlv.expression d k m).bind fun _ _ _ _ h => .nonVoid (Operand.Formed.ranged h) (pure h)

theorem condition (hlv : lv.Built K) :
    Builds K d k m (Compiler.condition lv) fun _ m' i => Formed K m m' i.all :=
  (value hlv).bind fun _ _ _ _ h => .ite (fun _ => pure h) fun _ => .fail _ h.ranged

theorem integer (hlv : lv.Built K) (cause : CompileError.Cause) :
    Builds K d k m (Compiler.integer lv cause) fun _ m' i => Formed K m m' i.all :=
  (value hlv).bind fun _ _ _ _ h => .ite (fun _ => pure h) fun _ => .fail _ h.ranged

theorem placeOf (hspan : K.span span) (h : e.Formed K m₀ j m) :
    Builds K d k m (Compiler.placeOf e span) (Kept m fun k' place => k' = k ∧ place.Formed K m₀ k m) := by
  unfold Compiler.placeOf
  split
  case h_1 place form => exact keep ⟨rfl, Formed.load h form⟩
  case h_2 => exact .fail _ hspan

theorem assignment {op : Operator} {m₁ : Next} (hspan : K.span span) (hplace : place.Formed K m₀ j m₁)
    (hv : e.Formed K m₁ j m) : Builds K d k m (Compiler.assignment op span place e) (Operand.Formed K m₀) := by
  have both : Formed K m₀ m (place.indices.flatMap Instr.all ++ e.instr.all) := hplace.indices.append hv
  have stored {k : Nat} {m' : Next} {op : Option BinaryOp} {operandTy : Ty} {v : Instr} (le : m₁.var ≤ m'.var)
      (h : Formed K m₀ m' (v.all ++ place.indices.flatMap Instr.all)) :
      Builds K d k m' (do return ⟨← Compiler.node span (.store place op operandTy v), place.ty, none⟩)
        (Operand.Formed K m₀) := by
    refine operand hspan ?_ rfl (hplace.root.mono le)
    change Formed K m₀ m' ((place.indices ++ [v]).flatMap Instr.all)
    rw [List.flatMap_append, List.flatMap_singleton]
    exact h.rotate
  refine .nonVoid hv.ranged ?_
  split
  · refine (coerce place.ty hspan both.rotate).bind fun k' m' v _ h => .pureBind (stored ?_ h)
    exact Nat.le_of_eq (hplace.indices.same.trans h.same.symm)
  · split
    · exact .failBind _ hspan
    · refine (operandType _ _ _ hspan).see fun ty _ => ?_
      split
      · exact .pureBind (stored hv.var both.rotate)
      · exact .failBind _ hspan

theorem expressionBody (hlv : lv.Built K) : Builds K d k m (Compiler.expressionBody lv) (Operand.Formed K m) := by
  refine (hlv.ternary d k m).bind fun k₁ m₁ target _ h => peek?.see fun token? ht => ?_
  split
  case h_1 op text span =>
    have hspan := (ht _ rfl).1
    refine .ite (fun _ => skip fun _ _ => (placeOf hspan h).see fun place hplace => ?_) fun _ => pure h
    exact (hlv.expression ..).bind fun k₂ m₂ e _ he => assignment hspan hplace he
  case h_2 => exact pure h

theorem ternaryBody (hlv : lv.Built K) : Builds K d k m (Compiler.ternaryBody lv) (Operand.Formed K m) := by
  refine (hlv.binary 0 d k m).bind fun k₁ m₁ cond _ hc => (eatIf _).read fun k₂ question? _ ⟨hq, _⟩ => ?_
  split
  case h_1 => exact pure hc
  case h_2 question _ _ =>
    have hspan := hq question rfl
    refine .ite (fun _ => .fail _ (Operand.Formed.ranged hc)) fun _ => (value hlv).bind fun k₃ m₃ yes _ hy => ?_
    refine (expect _ _).read fun k₄ _ _ _ => (hlv.ternary ..).bind fun k₅ m₅ no _ hn => ?_
    refine .nonVoid (Operand.Formed.ranged hn) ?_
    split
    case h_1 => exact .fail _ hspan
    case h_2 ty _ =>
      have all : Formed K m m₅ (cond.instr.all ++ (yes.instr.all ++ no.instr.all)) :=
        Formed.append hc (Formed.append hy hn)
      refine (widen ty all.swap).bind fun k₆ m₆ y _ hy' => ?_
      rw [← List.append_assoc] at hy'
      refine (widen ty hy'.rotate).bind fun k₇ m₇ n _ hn' => operand hspan ?_ rfl trivial
      have ordered := hn'.rotate
      rw [List.append_assoc] at ordered
      simpa [Form.children] using ordered.swap

theorem eatBinding (floor : Nat) : Builds K d k m (Compiler.eatBinding floor)
    (Kept m fun k' r => ∀ b ∈ r, K.span b.1 ∧ k' < k) := by
  refine peek?.see fun token? ht => ?_
  split
  case h_1 op text span =>
    obtain ⟨hspan, more⟩ := ht _ rfl
    split
    case h_1 b _ =>
      refine .ite (fun _ => skip fun _ _ => keep ?_) fun _ => keep nofun
      rintro _ ⟨⟩
      exact ⟨hspan, by omega⟩
    case h_2 => exact keep nofun
  case h_2 => exact keep nofun

theorem binaryBody (hlv : lv.Built K) (floor : Nat) :
    Builds K d k m (Compiler.binaryBody lv floor) (Operand.Formed K m) := by
  refine (hlv.unary d k m).bind fun k₁ m₁ first _ hf => ?_
  refine loop (fun k' m' state => Operand.Formed K m k' m' state.1) hf fun k₂ m₂ (left, chained) _ hl => ?_
  refine (eatBinding floor).read fun k₃ binding? _ hb => ?_
  split
  case h_1 => exact pure hl
  case h_2 span b =>
    obtain ⟨hspan, fewer⟩ := hb _ rfl
    refine .ite (fun _ => .fail _ hspan) fun _ => (hlv.binary ..).bind fun k₄ m₄ right _ hr => ?_
    exact (connect hspan b.connective (Formed.append hl hr)).bind fun k₅ _ _ _ h => pure ⟨by omega, h⟩

theorem stepPlace {up before : Bool} (hspan : K.span span) (h : e.Formed K m₀ j m) :
    Builds K d k m (Compiler.stepPlace span e up before) (Operand.Formed K m₀) :=
  (placeOf hspan h).see fun _ hplace => .ite (fun _ => operand hspan hplace.indices rfl hplace.root) fun _ => .fail _ hspan

theorem indexAccess (hlv : lv.Built K) (hspan : K.span span) (hplace : place.Formed K m₀ j m) :
    Builds K d k m (Compiler.indexAccess lv span place) (Place.Formed K m₀) := by
  unfold Compiler.indexAccess
  split
  case h_1 => exact .fail _ hspan
  case h_2 elem _ =>
    refine (integer hlv _).bind fun k₁ m₁ index _ h => (expect _ _).read fun _ _ _ _ => pure ⟨?_, ?_⟩
    · have both := hplace.indices.append h
      simpa [Place.indices] using both
    · exact hplace.root.mono h.var

theorem fieldAccess (hspan : K.span span) (hplace : place.Formed K m₀ j m) :
    Builds K d k m (Compiler.fieldAccess span place) (Place.Formed K m₀) := by
  refine .ask (fun _ _ => rfl) fun ctx _ => ?_
  split
  case h_1 => exact .fail _ hspan
  case h_2 =>
    refine (expect _ _).read fun _ name _ ⟨hname, _⟩ => ?_
    split
    case h_1 => exact .fail _ hname
    case h_2 =>
      refine pure ⟨?_, hplace.root⟩
      simpa [Place.indices] using hplace.indices

theorem access (hlv : lv.Built K) {token : Token} (hspan : K.span token.span) (he : e.Formed K m₀ j m)
    (hplace : place.Formed K m₀ j m) : Builds K d k m (Compiler.access lv token e place)
      fun k' m' e => k' ≤ k - 1 ∧ e.Formed K m₀ k' m' := by
  refine skip fun _ _ => ?_
  have made {c : Compiler (Place Instr)} (h : Builds K d (k - 1) m c (Place.Formed K m₀)) :
      Builds K d (k - 1) m (do
        let place ← c
        return ⟨← Compiler.node e.instr.span (.load place), place.ty, none⟩ : Compiler Operand) fun k' m' e =>
          k' ≤ k - 1 ∧ e.Formed K m₀ k' m' := by
    refine Builds.imp (Q := Operand.Formed K m₀) (h.bind fun _ _ place _ h => ?_) fun _ _ _ le h => ⟨le, h⟩
    exact operand he.ranged h.indices rfl h.root
  split
  · exact made (indexAccess hlv hspan hplace)
  · exact made (fieldAccess hspan hplace)

theorem accesses (hlv : lv.Built K) : Builds K d k m (Compiler.accesses lv) (Operand.Formed K m) := by
  refine (hlv.primary d k m).bind fun k₁ m₁ first _ hf => ?_
  refine loop (fun k' m' e => e.Formed K m k' m') hf fun k₂ m₂ e _ he => peek?.see fun token? ht => ?_
  split
  case h_1 => exact pure he
  case h_2 token =>
    obtain ⟨hspan, more⟩ := ht token rfl
    split
    case h_1 place form =>
      refine .ite (fun _ => ?_) fun _ => .ite (fun _ => skip fun _ _ => ?_) fun _ => pure he
      · exact (access hlv hspan he (Formed.load he form)).bind fun k' _ _ _ ⟨le, h⟩ => pure ⟨by omega, h⟩
      · exact (stepPlace hspan he).bind fun _ _ _ _ h => pure h
    case h_2 => exact .ite (fun _ => .fail _ hspan) fun _ => .ite (fun _ => .fail _ hspan) fun _ => pure he

theorem unaryOperation (hlv : lv.Built K) (hspan : K.span span) (op : UnaryOp) :
    Builds K d k m (Compiler.unaryOperation lv span op) (Operand.Formed K m) := by
  refine skip fun _ _ => (hlv.unary ..).bind fun _ _ e _ h => .ite (fun _ => operand hspan ?_ rfl trivial) fun _ =>
    .fail _ hspan
  change Tickwise.Formed K m _ ([e.instr].flatMap Instr.all)
  rw [List.flatMap_singleton]
  exact h

theorem unaryBody (hlv : lv.Built K) : Builds K d k m (Compiler.unaryBody lv) (Operand.Formed K m) := by
  refine peek?.see fun token? ht => ?_
  split
  · exact unaryOperation hlv (ht _ rfl).1 _
  · exact unaryOperation hlv (ht _ rfl).1 _
  · exact unaryOperation hlv (ht _ rfl).1 _
  · exact skip fun _ _ => (hlv.unary ..).bind fun _ _ _ _ h => .ite (fun _ => pure h) fun _ => .fail _ (ht _ rfl).1
  · exact skip fun _ _ => (hlv.unary ..).bind fun _ _ _ _ h => stepPlace (ht _ rfl).1 h
  · exact skip fun _ _ => (hlv.unary ..).bind fun _ _ _ _ h => stepPlace (ht _ rfl).1 h
  · exact accesses hlv

theorem literal (hspan : K.span span) (v : Variable) :
    Builds K d k m (Compiler.literal span v) (Operand.Formed K m) :=
  operand hspan .nil rfl trivial

/-- The instructions of a list of operands. -/
def instrs (args : List Operand) : List Instr := args.flatMap (·.instr.all)

/-- Each argument is converted where it stands; none is lost when there is a target for each. -/
theorem widenArgs {args : List Operand} {targets : List (Option Ty)} (same : targets.length = args.length)
    (h : Formed K m₀ m (instrs args ++ L)) : Builds K d k m (Compiler.widenArgs args targets) fun _ m' is =>
      is.length = args.length ∧ Formed K m₀ m' (is.flatMap Instr.all ++ L) := by
  induction args generalizing k m L targets with
  | nil =>
    cases targets with
    | nil => exact pure ⟨rfl, h⟩
    | cons => cases same
  | cons arg args ih =>
    cases targets with
    | nil => cases same
    | cons target? targets =>
      have same := Nat.succ.inj same
      have cont {k' : Nat} {m' : Next} {i : Instr} (h : Formed K m₀ m' (i.all ++ (instrs args ++ L))) :
          Builds K d k' m' (do return i :: (← Compiler.widenArgs args targets)) fun _ m' is =>
            is.length = (arg :: args).length ∧ Formed K m₀ m' (is.flatMap Instr.all ++ L) := by
        refine (ih same h.swap).bind fun _ _ is _ ⟨length, made⟩ => pure ⟨congrArg Nat.succ length, ?_⟩
        simpa using made.swap
      have first : Formed K m₀ m (arg.instr.all ++ (instrs args ++ L)) := by simpa [instrs] using h
      cases target? with
      | some target => exact (widen target first).bind fun _ _ _ _ => cont
      | none => exact .pureBind (cont first)

theorem resolveCall (hspan : K.span span) (name : String) (args : List Ty) :
    Builds K d k m (onScopes? fun s => s.resolveCall name span args) (Kept m fun k' r => k' = k ∧
      (r.conversions.length = args.length ∧
        ∀ id, r.callee = .user id → ∃ f, K.known f ∧ f.id = id ∧ f.params.length = args.length)) := by
  refine ⟨fun {ctx s} _ hs => ?_, fun _ _ _ _ => rfl⟩
  unfold onScopes? ScopeStack.resolveCall
  dsimp only
  have failed (cause : CompileError.Cause) :
      ∃ e, (s.scopes.recordError cause span).error = some e ∧ K.Reports e.span :=
    ⟨⟨cause, span⟩, by simp [ScopeStack.recordError, hs.fine], .inl hspan⟩
  split
  case h_1 r found =>
    obtain ⟨c, mem, takes, rfl⟩ := mem_of_resolve found
    obtain ⟨length, _⟩ := Candidate.fits_of_cost? takes
    refine ⟨k, m, Nat.le_refl k, hs, rfl, rfl, ?_, fun id callee => ?_⟩
    · simp [Candidate.resolved, length]
    · rcases List.mem_append.1 mem with mem | mem
      · obtain ⟨f, hf, rfl⟩ := List.mem_map.1 mem
        cases callee
        refine ⟨f, hs.known f (List.mem_filter.1 hf).1, rfl, ?_⟩
        simpa [Candidate.ofSignature] using length.symm
      · obtain ⟨g, _, rfl⟩ := List.mem_map.1 mem
        cases callee
  case h_2 => exact failed _
  case h_3 => exact failed _
  case h_4 => exact failed _

theorem call (hlv : lv.Built K) {name : Token} (hspan : K.span name.span) :
    Builds K d k m (Compiler.call lv name) (Operand.Formed K m) := by
  refine skip fun _ _ => (eatIf _).read fun k₁ closing? _ _ => ?_
  have resolved {k' : Nat} {m' : Next} {args : List Operand} (h : Formed K m m' (instrs args)) :
      Builds K d k' m' (do
        let r ← onScopes? fun s => s.resolveCall name.text name.span (args.map Operand.ty)
        let is ← Compiler.widenArgs args r.conversions
        return ⟨← Compiler.node name.span (.call r.callee is r.ret), r.ret, none⟩) (Operand.Formed K m) := by
    refine (resolveCall hspan name.text (args.map Operand.ty)).see fun r ⟨conversions, callee⟩ => ?_
    rw [List.length_map] at conversions callee
    have args' : Formed K m m' (instrs args ++ []) := by rwa [List.append_nil]
    refine (widenArgs conversions args').bind fun _ m₂ is _ ⟨length, made⟩ => operand hspan ?_ rfl ?_
    · rwa [List.append_nil] at made
    · cases hr : r.callee with
      | user id =>
        obtain ⟨f, known, found, arity⟩ := callee id hr
        exact ⟨f, known, found, arity.trans length.symm⟩
      | native id => trivial
  split
  · exact .pureBind (resolved .nil)
  · refine (commaList (fun m' as => Formed K m m' (instrs as)) .nil ?_).bind fun _ m₂ args _ h => ?_
    · intro k' m' as _ has
      exact (value hlv).imp fun _ _ e _ he => Formed.cons has he
    · refine (expect _ _).read fun _ _ _ _ => .pureBind (resolved ?_)
      have back : Formed K m m₂ (instrs args.reverse) := h
      exact back.perm ((List.reverse_perm args).flatMap_right _)

theorem declares_of_find? {s : State} (hs : s.Ready K d k m) {name : String} {v : Variable}
    (found : s.scopes.find? name = some v) : K.Declares m v.id := by
  obtain ⟨f, hf, hv⟩ := List.exists_of_findSome?_eq_some found
  exact hs.vars f hf v (List.mem_of_find?_eq_some hv)

theorem nameUse {name : Token} (hspan : K.span name.span) :
    Builds K d k m (Compiler.nameUse name) (Operand.Formed K m) := by
  refine get.see fun s hs => ?_
  split
  case h_1 v found => exact operand hspan .nil rfl (declares_of_find? hs found)
  case h_2 =>
    refine .ask (fun _ _ => rfl) fun ctx _ => ?_
    split
    · exact literal hspan _
    · exact .fail _ hspan

theorem newObject (hspan : K.span span) : Builds K d k m (Compiler.newObject span) (Operand.Formed K m) := by
  refine (expect _ _).read fun _ name _ ⟨hname, _⟩ => .ask (fun _ _ => rfl) fun ctx _ => ?_
  split
  · exact .fail _ hname
  · refine (eatIf _).read fun _ opening _ _ => ?_
    split
    · exact (expect _ _).read fun _ _ _ _ => operand hspan .nil rfl trivial
    · exact operand hspan .nil rfl trivial

theorem primaryBody (hlv : lv.Built K) : Builds K d k m (Compiler.primaryBody lv) (Operand.Formed K m) := by
  refine skip fun token? ht => ?_
  cases token? with
  | none => exact .ask (fun _ _ => rfl) fun _ hend => .failAt _ (.inr hend)
  | some token =>
    have hspan := (ht token rfl).1
    dsimp only
    split
    · split
      · exact literal hspan _
      · exact .fail _ hspan
    · split
      · exact literal hspan _
      · exact .fail _ hspan
    · exact literal hspan _
    · exact literal hspan _
    · exact literal hspan _
    · exact operand hspan .nil rfl trivial
    · exact newObject hspan
    · exact (hlv.expression ..).bind fun _ _ _ _ h => (expect _ _).read fun _ _ _ _ => pure h
    · exact (atOp _).see fun _ _ => .ite (fun _ => call hlv hspan) fun _ => nameUse hspan
    · exact .fail _ hspan

theorem listInit (hlv : lv.Built K) (ty : Ty) :
    Builds K d k m (Compiler.listInit lv ty) fun _ m' i => Formed K m m' i.all := by
  induction ty generalizing k m with
  | array elem ih =>
    unfold Compiler.listInit
    refine (expect _ _).read fun _ opening _ ⟨hspan, _⟩ => (eatIf _).read fun _ closing? _ _ => ?_
    have made {k' : Nat} {m' : Next} {is : List Instr} (h : Formed K m m' (is.flatMap Instr.all)) :
        Builds K d k' m' (Compiler.node opening.span (.list (.array elem) is)) fun _ m' i => Formed K m m' i.all := by
      have parts : Formed K m m' ((Form.list (.array elem) is).children.flatMap Instr.all ++ []) := by
        rwa [List.append_nil]
      refine (form hspan parts rfl trivial).imp fun _ _ i _ h => ?_
      simpa using h.2
    split
    · exact .pureBind (made .nil)
    · refine (commaList (fun m' is => Formed K m m' (is.flatMap Instr.all)) .nil ?_).bind fun _ m₂ is _ h => ?_
      · intro k' m' is _ his
        refine (atOp _).see fun _ _ => .ite (fun _ => ih.imp fun _ _ _ _ hi => his.cons hi) fun _ => ?_
        refine (value hlv).bind fun _ m₃ e _ he => ?_
        have framed : Formed K m' m₃ (e.instr.all ++ []) := by rw [List.append_nil]; exact he
        refine (coerce elem framed.ranged framed).imp fun _ _ i _ hi => his.cons ?_
        simpa using hi
      · refine (expect _ _).read fun _ _ _ _ => .pureBind (made ?_)
        exact h.perm ((List.reverse_perm is).flatMap_right _)
  | _ =>
    unfold Compiler.listInit
    exact (expect _ _).read fun _ _ _ ⟨hspan, _⟩ => .fail _ hspan

end Builds
end Tickwise
