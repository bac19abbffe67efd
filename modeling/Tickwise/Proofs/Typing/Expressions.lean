import Tickwise.Proofs.Typing.Calls
set_option autoImplicit false

/-!
# Typed expressions

If the routines for the parts of an expression answer typed operands, so do those for the expression.
-/
namespace Tickwise

open Compile Compiler

/-- The routines of a level answer typed instructions, with the types that they report. -/
structure Level.Typed (lv : Level) : Prop where
  statement : ∀ ctx K, Gives ctx K lv.statement (·.Typed ctx.ret ·)
  expression : ∀ ctx K, Gives ctx K lv.expression (·.Yields ctx.ret ·)
  ternary : ∀ ctx K, Gives ctx K lv.ternary (·.Yields ctx.ret ·)
  binary : ∀ floor ctx K, Gives ctx K (lv.binary floor) (·.Yields ctx.ret ·)
  unary : ∀ ctx K, Gives ctx K lv.unary (·.Yields ctx.ret ·)
  primary : ∀ ctx K, Gives ctx K lv.primary (·.Yields ctx.ret ·)

/-- A place that is declared, with typed indexes. -/
structure Known.Names (K : Known) (ret : Ty) (place : Place Instr) : Prop where
  declared : ∀ D, K = some D → D.Names place
  indices : ∀ i ∈ place.indices, K.Typed ret i

theorem Known.Names.mono {K K' : Known} (hK : K.Le K') {ret : Ty} {place : Place Instr}
    (h : K.Names ret place) : K'.Names ret place :=
  ⟨hK.all (fun le names => names.mono le) h.declared, fun i hi => (h.indices i hi).mono hK⟩

theorem Compile.Context.name_of_class? {ctx : Context} {name : String} {cls : ClassLayout}
    (h : ctx.class? name = some cls) : cls.name = name := by
  have found {classes : List ClassLayout} (h : classes.find? (·.name = name) = some cls) :
      cls.name = name := by
    have named := List.find?_some h
    exact of_decide_eq_true named
  rcases Option.or_eq_some_iff.1 h with h | ⟨_, h⟩
  · exact found h
  · exact found h

namespace Gives

variable {α : Type} {ctx : Context} {K : Known} {P : Known → α → Prop} {lv : Level} {e : Operand}
  {place : Place Instr}

theorem value (hlv : lv.Typed) : Gives ctx K (Compiler.value lv)
    fun K' e => K'.Yields ctx.ret e ∧ e.ty ≠ .void :=
  (hlv.expression ctx K).bind fun _ _ _ yields => .nonVoid fun notVoid => .pure ⟨yields, notVoid⟩

theorem condition (hlv : lv.Typed) : Gives ctx K (Compiler.condition lv) (·.Typed ctx.ret ·) :=
  (value hlv).bind fun _ _ _ yields => .ite (fun _ => .pure yields.1.typed) fun _ => .fail _ _

theorem integer (hlv : lv.Typed) (cause : CompileError.Cause) :
    Gives ctx K (Compiler.integer lv cause) (·.Typed ctx.ret ·) :=
  (value hlv).bind fun _ _ _ yields => .ite (fun _ => .pure yields.1.typed) fun _ => .fail _ _

theorem names_of_load (h : K.Yields ctx.ret e) (form : e.instr.form = .load place) :
    place.ty = e.ty ∧ K.Names ctx.ret place := by
  obtain ⟨⟨id, span, f⟩, ty, constant⟩ := e
  cases form
  exact ⟨h.ty, fun D hD => (h.typed D hD).checks, fun i hi => h.typed.part hi⟩

theorem placeOf {span : Span} {f : Place Instr → Compiler α} (h : K.Yields ctx.ret e)
    (second : ∀ place, place.ty = e.ty → K.Names ctx.ret place → Gives ctx K (f place) P) :
    Gives ctx K (Compiler.placeOf e span >>= f) P := by
  unfold Compiler.placeOf
  split
  case h_1 place form =>
    obtain ⟨ty, names⟩ := names_of_load h form
    exact .pureBind (second place ty names)
  case h_2 => exact .failBind ..

theorem assignment {op : Operator} {span : Span} (hp : K.Names ctx.ret place)
    (hv : K.Yields ctx.ret e) :
    Gives ctx K (Compiler.assignment op span place e) (·.Yields ctx.ret ·) := by
  refine .nonVoid fun _ => ?_
  have stored {K' : Known} {op : Option BinaryOp} {operandTy : Ty} {v : Instr} (le : K.Le K')
      (typed : K'.Typed ctx.ret v)
      (checks : K'.Checks ctx.ret (.store place op operandTy v)) :
      Gives ctx K' (do return ⟨← Compiler.node span (.store place op operandTy v), place.ty, none⟩)
        (·.Yields ctx.ret ·) := by
    refine .operand (fun _ => rfl) checks fun i hi => ?_
    rcases List.mem_append.1 hi with hi | hi
    · exact (hp.mono le).indices i hi
    · exact List.mem_singleton.1 hi ▸ typed
  split
  case isTrue =>
    refine (Gives.coerce hv place.ty span).bind ?_
    rintro K' v le ⟨typed, fits⟩
    exact .pureBind (stored le typed fun D hD => ⟨(hp.mono le).declared D hD, fits⟩)
  case isFalse =>
    cases hop : compoundOp? op with
    | none => exact .failBind ..
    | some base =>
      refine .operandType fun operandTy ok => .ite (fun accepts => ?_) fun _ => .failBind ..
      have scalar := scalar_of_operandType? ok (compoundOp?_arithmetic hop)
      exact .pureBind (stored (.refl K) hv.typed fun D hD =>
        ⟨hp.declared D hD, Ty.isReference_of_accepts accepts scalar⟩)

theorem expressionBody (hlv : lv.Typed) :
    Gives ctx K (Compiler.expressionBody lv) (·.Yields ctx.ret ·) := by
  refine (hlv.ternary ctx K).bind fun K₁ target le yields => .read .peek? fun token? => ?_
  split
  · refine .ite (fun _ => .read .advance? fun _ => .placeOf yields fun place _ names => ?_) fun _ =>
      .pure yields
    exact (hlv.expression ctx K₁).bind fun K₂ e le' value => assignment (names.mono le') value
  · exact .pure yields

theorem ternaryBody (hlv : lv.Typed) :
    Gives ctx K (Compiler.ternaryBody lv) (·.Yields ctx.ret ·) := by
  refine (hlv.binary 0 ctx K).bind fun K₁ cond le hc => .read (.eatIf _) fun question? => ?_
  split
  case h_1 => exact .pure hc
  case h_2 question =>
    refine .ite (fun _ => .fail _ _) fun _ => (value hlv).bind fun K₂ yes le₂ ⟨hy, _⟩ =>
      .read (.expect _ _) fun _ => (hlv.ternary ctx K₂).bind fun K₃ no le₃ hn => .nonVoid fun _ => ?_
    split
    case h_1 => exact .fail _ _
    case h_2 ty branch =>
      refine (Gives.widen (hy.mono le₃) ty).bind ?_
      rintro K₄ y le₄ ⟨typedY, tyY⟩
      refine (Gives.widen (hn.mono le₄) ty).bind ?_
      rintro K₅ n le₅ ⟨typedN, tyN⟩
      obtain ⟨reported, fitsY, fitsN⟩ := branchType?_widened branch
      rw [← tyY, ← tyN] at reported
      rw [← tyY] at fitsY
      rw [← tyN] at fitsN
      have cond := (((hc.mono le₂).mono le₃).mono le₄).mono le₅
      refine .operand (fun _ => reported) (fun D hD => ?_) ?_
      · exact ⟨reported.symm ▸ fitsY, reported.symm ▸ fitsN⟩
      · exact List.forall_mem_cons.2 ⟨cond.typed,
          List.forall_mem_cons.2 ⟨typedY.mono le₅, List.forall_mem_singleton.2 typedN⟩⟩

theorem reads_eatBinding (floor : Nat) : Reads (eatBinding floor) := by
  refine .bind .peek? fun token? => ?_
  split
  · split
    · exact .ite (.bind .advance? fun _ => .pure _) (.pure _)
    · exact .pure _
  · exact .pure _

theorem binaryBody (hlv : lv.Typed) (floor : Nat) :
    Gives ctx K (Compiler.binaryBody lv floor) (·.Yields ctx.ret ·) := by
  refine (hlv.unary ctx K).bind fun K₁ first _ hf => ?_
  refine .loop (fun K' state => K'.Yields ctx.ret state.1) hf fun K₂ (left, chained) _ hl => ?_
  refine .read (reads_eatBinding floor) fun binding? => ?_
  split
  case h_1 => exact .pure hl
  case h_2 span b =>
    refine .ite (fun _ => .fail _ _) fun _ => (hlv.binary b.rightFloor ctx K₂).bind
      fun K₃ right le hr => ?_
    exact (connect span b.connective (Known.Yields.mono le hl) hr).bind fun _ _ _ h => .pure h

theorem stepPlace {span : Span} {up before : Bool} (h : K.Yields ctx.ret e) :
    Gives ctx K (Compiler.stepPlace span e up before) (·.Yields ctx.ret ·) := by
  refine .placeOf h fun place _ names => .ite (fun numeric => ?_) fun _ => .fail _ _
  exact .operand (fun _ => rfl) (fun D hD => ⟨names.declared D hD, numeric⟩) names.indices

theorem names_access {access : Access Instr} {ty : Ty} (hp : K.Names ctx.ret place)
    (leads : ∀ D, K = some D → D.Leads place.ty [access] ty)
    (indices : ∀ i elem, access = .index i elem → K.Typed ctx.ret i) :
    K.Names ctx.ret { place with path := place.path ++ [access], ty := ty } := by
  refine ⟨fun D hD => ?_, fun i hi => ?_⟩
  · obtain ⟨root, var, path⟩ := hp.declared D hD
    exact ⟨root, var, path.concat (leads D hD)⟩
  · unfold Place.indices at hi
    rw [List.filterMap_append] at hi
    rcases List.mem_append.1 hi with hi | hi
    · exact hp.indices i hi
    · cases access with
      | index j elem =>
        cases List.mem_singleton.1 hi
        exact indices i elem rfl
      | field k => cases hi

theorem indexAccess (hlv : lv.Typed) (span : Span) (hp : K.Names ctx.ret place) :
    Gives ctx K (Compiler.indexAccess lv span place) (·.Names ctx.ret ·) := by
  unfold Compiler.indexAccess
  split
  case h_1 => exact .fail _ _
  case h_2 elem element =>
    refine (integer hlv _).bind fun K₁ index le typed => .read (.expect _ _) fun _ => .pure ?_
    refine names_access (hp.mono le) (fun D hD => ⟨?_, rfl⟩) fun i _ same => by cases same; exact typed
    revert element
    cases place.ty <;> intro element <;> cases element
    rfl

theorem fieldAccess (span : Span) (hp : K.Names ctx.ret place) :
    Gives ctx K (Compiler.fieldAccess span place) (·.Names ctx.ret ·) := by
  refine .knowing fun classes => .ask ?_
  cases hc : place.ty.className?.bind ctx.class? with
  | none => exact .fail _ _
  | some cls =>
    refine .read .expectIdent fun name => ?_
    cases hf : cls.fields.zipIdx.find? (·.1.name = name.text) with
    | none => exact .fail _ _
    | some field =>
      refine .pure (names_access hp (fun D hD => ?_) nofun)
      obtain ⟨c, named, known⟩ := Option.bind_eq_some_iff.1 hc
      have at_ : cls.fields[field.2]? = some field.1 :=
        List.mem_zipIdx_iff_getElem?.1 (List.mem_of_find?_eq_some hf)
      refine ⟨c, cls, field.1, ?_, (classes D hD c).symm.trans known, at_, rfl⟩
      revert named
      cases place.ty <;> intro named <;> cases named
      rfl

theorem access (hlv : lv.Typed) (token : Token) (hp : K.Names ctx.ret place) :
    Gives ctx K (Compiler.access lv token e place) (·.Yields ctx.ret ·) := by
  have loaded {K' : Known} {place' : Place Instr} (names : K'.Names ctx.ret place') :
      Gives ctx K' (do return ⟨← Compiler.node e.instr.span (.load place'), place'.ty, none⟩)
        (·.Yields ctx.ret ·) :=
    .operand (fun _ => rfl) names.declared names.indices
  refine .read .advance? fun _ => ?_
  split
  · exact (indexAccess hlv token.span hp).bind fun _ _ _ names => loaded names
  · exact (fieldAccess token.span hp).bind fun _ _ _ names => loaded names

theorem accesses (hlv : lv.Typed) : Gives ctx K (Compiler.accesses lv) (·.Yields ctx.ret ·) := by
  refine (hlv.primary ctx K).bind fun K₁ first _ hf => ?_
  refine .loop (·.Yields ctx.ret ·) hf fun K₂ e _ he => .read .peek? fun token? => ?_
  split
  case h_1 => exact .pure he
  case h_2 token =>
    split
    case h_1 place form =>
      obtain ⟨_, names⟩ := names_of_load he form
      refine .ite (fun _ => ?_) fun _ => .ite (fun _ => .read .advance? fun _ => ?_) fun _ => .pure he
      · exact (access hlv token names).bind fun _ _ _ h => .pure h
      · exact (stepPlace he).bind fun _ _ _ h => .pure h
    case h_2 => exact .ite (fun _ => .fail _ _) fun _ => .ite (fun _ => .fail _ _) fun _ => .pure he

theorem unaryOperation (hlv : lv.Typed) (span : Span) (op : UnaryOp) :
    Gives ctx K (Compiler.unaryOperation lv span op) (·.Yields ctx.ret ·) := by
  refine .read .advance? fun _ => (hlv.unary ctx K).bind fun K₁ e _ he =>
    .ite (fun admits => ?_) fun _ => .fail _ _
  refine .operand (fun _ => he.ty) (fun D hD => ?_) (List.forall_mem_singleton.2 he.typed)
  change unaryAdmits op e.instr.ty = true
  rw [he.ty]
  exact admits

theorem unaryBody (hlv : lv.Typed) : Gives ctx K (Compiler.unaryBody lv) (·.Yields ctx.ret ·) := by
  refine .read .peek? fun token? => ?_
  split
  · exact unaryOperation hlv _ _
  · exact unaryOperation hlv _ _
  · exact unaryOperation hlv _ _
  · exact .read .advance? fun _ => (hlv.unary ctx K).bind fun _ _ _ he =>
      .ite (fun _ => .pure he) fun _ => .fail _ _
  · exact .read .advance? fun _ => (hlv.unary ctx K).bind fun _ _ _ he => stepPlace he
  · exact .read .advance? fun _ => (hlv.unary ctx K).bind fun _ _ _ he => stepPlace he
  · exact accesses hlv

theorem literal (span : Span) {v : Variable} (h : ∀ S : Shapes, S.Has v.ty v.value) :
    Gives ctx K (Compiler.literal span v) (·.Yields ctx.ret ·) :=
  .operand (fun _ => rfl) (fun _ _ => h) nofun

theorem call (hlv : lv.Typed) (name : Token) :
    Gives ctx K (Compiler.call lv name) (·.Yields ctx.ret ·) := by
  refine .read .advance? fun _ => .read (.eatIf _) fun closing? => ?_
  have resolved {K' : Known} {args : List Operand} (h : ∀ a ∈ args, K'.Yields ctx.ret a) :
      Gives ctx K' (do
        let r ← onScopes? fun s => s.resolveCall name.text name.span (args.map Operand.ty)
        let instrs ← Compiler.widenArgs args r.conversions
        return ⟨← Compiler.node name.span (.call r.callee instrs r.ret), r.ret, none⟩)
        (·.Yields ctx.ret ·) := by
    refine (resolveCall name.text name.span (args.map Operand.ty)).bind fun K₁ r le hr => ?_
    refine (Gives.widenArgs r.conversions fun a ha => (h a ha).mono le).bind ?_
    rintro K₂ instrs le' ⟨typed, tys⟩
    refine .operand (fun _ => rfl) (fun D hD => ?_) typed
    exact (le'.all (fun le h => h.mono le) hr D hD).2 instrs tys ctx.ret
  split
  · exact .pureBind (resolved nofun)
  · refine (Gives.commaList (fun le h => ⟨h.1.mono le, h.2⟩) fun K' _ => value hlv).bind
      fun K₁ args le h => .read (.expect _ _) fun _ => .pureBind (resolved fun a ha => (h a ha).1)

theorem nameUse (name : Token) : Gives ctx K (Compiler.nameUse name) (·.Yields ctx.ret ·) := by
  refine .inspect fun s hs => ?_
  cases hv : s.scopes.find? name.text with
  | some v =>
    obtain ⟨f, hf, found⟩ := List.exists_of_findSome?_eq_some hv
    refine .operand (fun _ => rfl) (fun D hD => ⟨v.ty, ?_, rfl⟩) nofun
    exact (hs D hD).vars f hf v (List.mem_of_find?_eq_some found)
  | none =>
    refine .ask ?_
    cases ctx.env.constant? name.text with
    | some i => exact literal name.span fun _ => ⟨i, rfl⟩
    | none => exact .fail _ _

theorem newObject (span : Span) : Gives ctx K (Compiler.newObject span) (·.Yields ctx.ret ·) := by
  refine .knowing fun classes => .read .expectIdent fun name => .ask ?_
  cases hc : ctx.class? name.text with
  | none => exact .fail _ _
  | some cls =>
    have made : Gives ctx K (do return ⟨← Compiler.node span (.new cls), .named cls.name, none⟩)
        (·.Yields ctx.ret ·) := by
      refine .operand (fun _ => rfl) (fun D hD => ?_) nofun
      change D.class? cls.name = some cls
      rw [Context.name_of_class? hc]
      exact (classes D hD name.text).symm.trans hc
    refine .read (.eatIf _) fun opening => ?_
    split
    · exact .read (.expect _ _) fun _ => made
    · exact made

theorem primaryBody (hlv : lv.Typed) :
    Gives ctx K (Compiler.primaryBody lv) (·.Yields ctx.ret ·) := by
  refine .read .advance? fun token? => ?_
  cases token? with
  | none => exact .read .read fun _ => .fail _ _
  | some token =>
    dsimp only
    split
    · split
      · exact literal _ fun _ => ⟨_, rfl⟩
      · exact .fail _ _
    · split
      · exact literal _ fun _ => ⟨_, rfl⟩
      · exact .fail _ _
    · exact literal _ fun _ => ⟨_, rfl⟩
    · exact literal _ fun _ => ⟨_, rfl⟩
    · exact literal _ fun _ => ⟨_, rfl⟩
    · exact .operand (fun _ => rfl) (fun _ _ _ => rfl) nofun
    · exact newObject _
    · exact (hlv.expression ctx K).bind fun _ _ _ h => .read (.expect _ _) fun _ => .pure h
    · exact .read (.atOp _) fun _ => .ite (fun _ => call hlv token) fun _ => nameUse token
    · exact .fail _ _

theorem listInit (hlv : lv.Typed) (ty : Ty) :
    Gives ctx K (Compiler.listInit lv ty) fun K' i => K'.Typed ctx.ret i ∧ i.ty = ty := by
  induction ty generalizing K with
  | array elem ih =>
    unfold Compiler.listInit
    refine .read (.expect _ _) fun opening => .read (.eatIf _) fun closing? => ?_
    have listed {K' : Known} {elements : List Instr}
        (h : ∀ e ∈ elements, K'.Typed ctx.ret e ∧ elem.Fits e.ty) :
        Gives ctx K' (Compiler.node opening.span (.list (.array elem) elements))
          fun K' i => K'.Typed ctx.ret i ∧ i.ty = .array elem := by
      have checks : K'.Checks ctx.ret (.list (.array elem) elements) :=
        fun D hD => ⟨elem, rfl, fun e he => (h e he).2⟩
      refine (Gives.node _ checks fun e he => (h e he).1).imp ?_
      rintro K'' _ _ ⟨⟨id, rfl⟩, typed⟩
      exact ⟨typed, rfl⟩
    split
    · exact .pureBind (listed nofun)
    · refine (Gives.commaList (fun le h => ⟨h.1.mono le, h.2⟩) fun K' _ => ?_).bind
        fun K₁ elements le h => .read (.expect _ _) fun _ => .pureBind (listed h)
      refine .read (.atOp _) fun inner => .ite (fun _ => ?_) fun _ => ?_
      · exact (ih).imp fun _ _ _ h => ⟨h.1, .inl h.2⟩
      · exact (value hlv).bind fun _ e _ he => Gives.coerce he.1 elem _
  | _ =>
    unfold Compiler.listInit
    exact .read (.expect _ _) fun _ => .fail _ _

end Gives
end Tickwise
