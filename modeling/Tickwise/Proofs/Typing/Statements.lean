import Tickwise.Compile.Statement
import Tickwise.Proofs.Typing.Expressions
set_option autoImplicit false

/-!
# Typed statements

The routines of every level answer typed instructions.
-/
namespace Tickwise

open Compile Compiler

def Declarations.declare (D : Declarations) (id : VarId) (ty : Ty) : Declarations :=
  { D with var? := fun q => if q = id then some ty else D.var? q }

theorem Declarations.le_declare {D : Declarations} {id : VarId} (fresh : D.var? id = none) (ty : Ty) :
    D.Le (D.declare id ty) := by
  refine ⟨rfl, rfl, rfl, fun {q t} hq => ?_⟩
  have old : q ≠ id := fun same => by
    rw [same, fresh] at hq
    cases hq
  exact (if_neg old).trans hq

theorem declared_of_declare {s s' : ScopeStack} {span : Span} {v : Variable} {id id' : VarId}
    (h : (let (declared, s) := s.declare span v
      (if declared then some id else none, s)) = (some id', s')) :
    id = id' ∧ ∃ f fs, s.frames = f :: fs ∧
      s' = { s with frames := { f with vars := v :: f.vars } :: fs } := by
  unfold ScopeStack.declare at h
  by_cases duplicate : s.isDuplicate (v.name.getD "") = true
  · rw [if_pos duplicate] at h
    cases h
  · rw [if_neg duplicate] at h
    cases hf : s.frames with
    | nil =>
      rw [hf] at h
      cases h
    | cons f fs =>
      rw [hf] at h
      cases h
      exact ⟨rfl, f, fs, rfl, rfl⟩

namespace Gives

variable {α : Type} {ctx : Context} {K : Known} {P : Known → α → Prop} {lv : Level}

theorem withReader {c : Compiler α} {f : Context → Context}
    (same : ∀ name, (f ctx).class? name = ctx.class? name) (h : Gives (f ctx) K c P) :
    Gives ctx K (withReader f c) P := by
  refine ⟨fun {s a s'} hs hc => ?_⟩
  have there : K.Agrees (f ctx) s := fun D hD =>
    { hs D hD with classes := fun name => (same name).trans ((hs D hD).classes name) }
  obtain ⟨K', le, hs', ha⟩ := h.answers there hc
  exact ⟨K', le, fun D hD =>
    { hs' D hD with classes := fun name => (same name).symm.trans ((hs' D hD).classes name) }, ha⟩

theorem declareVar (name : String) (span : Span) (ty : Ty) :
    Gives ctx K (Compiler.declareVar name span ty) fun K' id =>
      ∀ D, K' = some D → D.var? id = some ty := by
  refine ⟨fun {s id s'} hs hc => ?_⟩
  obtain ⟨id', s₁, fresh, hc⟩ := some_of_bind hc
  cases fresh
  obtain ⟨scopes, declared, rfl⟩ := some_of_onScopes? hc
  obtain ⟨rfl, f, fs, frames, rfl⟩ := declared_of_declare declared
  refine ⟨K.map (·.declare s.scopes.nextVar ty), ?_, fun D hD => ?_, fun D hD => ?_⟩
  · cases K with
    | none => rfl
    | some D => exact ⟨_, rfl, D.le_declare ((hs D rfl).fresh _ (Nat.le_refl _)) ty⟩
  · obtain ⟨D, rfl, rfl⟩ := Option.map_eq_some_iff.1 hD
    obtain ⟨classes, natives, functions, vars, unused⟩ := hs D rfl
    have le := D.le_declare (unused _ (Nat.le_refl _)) ty
    refine ⟨classes, natives, functions, ?_, fun q hq => ?_⟩
    · have older : ∀ g ∈ s.scopes.frames, ∀ v ∈ g.vars,
          (D.declare s.scopes.nextVar ty).var? v.id = some v.ty :=
        fun g hg v hv => le.vars (vars g hg v hv)
      rw [show s.scopes.frames = f :: fs from frames] at older
      obtain ⟨first, rest⟩ := List.forall_mem_cons.1 older
      exact List.forall_mem_cons.2 ⟨List.forall_mem_cons.2 ⟨if_pos rfl, first⟩, rest⟩
    · have later : s.scopes.nextVar < q := hq
      exact (if_neg (Nat.ne_of_gt later)).trans (unused q (Nat.le_of_lt later))
  · obtain ⟨D, rfl, rfl⟩ := Option.map_eq_some_iff.1 hD
    exact if_pos rfl

/-- A new instruction whose parts are typed and which has nothing else to check. -/
theorem statement {form : Form Instr} (span : Span) (checks : K.Checks ctx.ret form)
    (parts : ∀ c ∈ form.children, K.Typed ctx.ret c) :
    Gives ctx K (Compiler.node span form) (·.Typed ctx.ret ·) :=
  (node span checks parts).imp fun _ _ _ h => h.2

theorem typed_all {K' : Known} (le : K.Le K') {is : List Instr} {ret : Ty}
    (h : ∀ i ∈ is, K.Typed ret i) : ∀ i ∈ is, K'.Typed ret i :=
  fun i hi => (h i hi).mono le

theorem statementsToBrace (hlv : lv.Typed) :
    Gives ctx K (Compiler.statementsToBrace lv) fun K' is => ∀ i ∈ is, K'.Typed ctx.ret i := by
  refine .loop (fun K' is => ∀ i ∈ is, K'.Typed ctx.ret i) nofun fun K' is _ h => ?_
  refine .read (.eatIf _) fun closing => .ite (fun _ => .pure fun i hi => ?_) fun _ =>
    .read .peek? fun token? => .ite (fun _ => .read .read fun _ => .fail _ _) fun _ => ?_
  · exact h i (List.mem_reverse.1 hi)
  · exact (hlv.statement ctx K').bind fun K'' i le typed =>
      .pure (List.forall_mem_cons.2 ⟨typed, typed_all le h⟩)

theorem block (hlv : lv.Typed) (isScoped : Bool) :
    Gives ctx K (Compiler.block lv isScoped) (·.Typed ctx.ret ·) := by
  refine .read (.expect _ _) fun opening => ?_
  have made {K' : Known} {is : List Instr} (h : ∀ i ∈ is, K'.Typed ctx.ret i) :
      Gives ctx K' (Compiler.node opening.span (.block is)) (·.Typed ctx.ret ·) :=
    statement _ (fun _ _ => trivial) h
  split
  · exact (inFrame true (statementsToBrace hlv)).bind fun _ _ _ h => made h
  · exact (statementsToBrace hlv).bind fun _ _ _ h => made h

theorem dimensions (hlv : lv.Typed) (base : Ty) :
    Gives ctx K (Compiler.dimensions lv base) fun K' r => ∀ i ∈ r.2, K'.Typed ctx.ret i := by
  refine .loop (fun K' r => ∀ i ∈ r.2.1, K'.Typed ctx.ret i) nofun
    fun K' (ty, sizes, openEnded) _ h => .read (.eatIf _) fun opening? => ?_
  split
  case h_1 => exact .pure h
  case h_2 opening =>
    refine .read (.eatIf _) fun closing => .ite (fun _ => ?_) fun _ => .ite (fun _ => .fail _ _)
      fun _ => ?_
    · exact .read (.arrayOf _ _) fun _ => .pure h
    · refine (integer hlv _).bind fun K'' size le typed => .read (.expect _ _) fun _ =>
        .read (.arrayOf _ _) fun _ => .pure fun i hi => ?_
      rcases List.mem_append.1 hi with hi | hi
      · exact (h i hi).mono le
      · exact List.mem_singleton.1 hi ▸ typed

theorem initializer (hlv : lv.Typed) (ty : Ty) :
    Gives ctx K (Compiler.initializer lv ty) fun K' init =>
      ∀ e, init = some e → K'.Typed ctx.ret e ∧ ty.Fits e.ty := by
  refine .read (.eatIf _) fun assign? => ?_
  split
  case h_1 => exact .pure nofun
  case h_2 assign =>
    refine .read (.atOp _) fun braced => .ite (fun _ => ?_) fun _ => ?_
    · refine (listInit hlv ty).bind fun K' i _ h => .pure fun e he => ?_
      cases he
      exact ⟨h.1, .inl h.2⟩
    · refine (value hlv).bind fun K₁ e _ he => (Gives.coerce he.1 ty assign.span).bind
        fun K₂ i _ h => .pure fun e he => ?_
      cases he
      exact h

theorem declarationItem (hlv : lv.Typed) (base : Ty) :
    Gives ctx K (Compiler.declarationItem lv base) (·.Typed ctx.ret ·) := by
  refine .read .expectIdent fun name => (dimensions hlv base).bind fun K₁ (ty, sizes) _ hs =>
    (initializer hlv ty).bind fun K₂ init le hi =>
      (declareVar name.text name.span ty).bind fun K₃ id le' hid => ?_
  refine statement _ (fun D hD => ⟨hid D hD, fun e he => (hi e he).2⟩) fun c hc => ?_
  rcases List.mem_append.1 hc with hc | hc
  · exact ((hs c hc).mono le).mono le'
  · exact (hi c (Option.mem_toList.1 hc)).1.mono le'

theorem declaration (hlv : lv.Typed) : Gives ctx K (Compiler.declaration lv) (·.Typed ctx.ret ·) := by
  refine .read (.typeName false) fun (span, base) => ?_
  refine (Gives.commaList (fun le h => h.mono le) fun K' _ => declarationItem hlv base).bind
    fun K₁ items _ h => ?_
  exact statement _ (fun _ _ => trivial) h

theorem governed (hlv : lv.Typed) : Gives ctx K (Compiler.governed lv) (·.Typed ctx.ret ·) :=
  .read (.bind .read fun _ => .bind .get fun _ => .pure _) fun _ =>
    .ite (fun _ => .read .here fun _ => .fail _ _) fun _ => hlv.statement ctx K

theorem loopBody (hlv : lv.Typed) (label : Option String) :
    Gives ctx K (Compiler.loopBody lv label) (·.Typed ctx.ret ·) :=
  .withReader (fun _ => rfl) (governed hlv)

theorem parenCondition (hlv : lv.Typed) :
    Gives ctx K (Compiler.parenCondition lv) (·.Typed ctx.ret ·) :=
  .read (.expect _ _) fun _ => (condition hlv).bind fun _ _ _ h => .read (.expect _ _) fun _ => .pure h

theorem ifStatement (hlv : lv.Typed) (span : Span) :
    Gives ctx K (Compiler.ifStatement lv span) (·.Typed ctx.ret ·) := by
  refine (parenCondition hlv).bind fun K₁ cond _ hc => (governed hlv).bind fun K₂ yes le hy =>
    .read (.eatIf _) fun word? => ?_
  have made {K' : Known} {no : Option Instr} (le' : K₂.Le K') (hn : ∀ i ∈ no, K'.Typed ctx.ret i) :
      Gives ctx K' (Compiler.node span (.branch cond yes no)) (·.Typed ctx.ret ·) :=
    statement _ (fun _ _ => trivial) (List.forall_mem_cons.2 ⟨(hc.mono le).mono le',
      List.forall_mem_cons.2 ⟨hy.mono le', fun i hi => hn i (Option.mem_toList.1 hi)⟩⟩)
  split
  · refine (governed hlv).map.bind fun K₃ no? le' hn => made le' fun i hi => ?_
    obtain ⟨no, rfl, typed⟩ := hn
    exact Option.mem_some.1 hi ▸ typed
  · exact .pureBind (made (.refl K₂) nofun)

theorem whileStatement (hlv : lv.Typed) (label : Option String) (span : Span) :
    Gives ctx K (Compiler.whileStatement lv label span) (·.Typed ctx.ret ·) :=
  (parenCondition hlv).bind fun _ _ _ hc => (loopBody hlv label).bind fun _ _ le hb =>
    statement _ (fun _ _ => trivial)
      (List.forall_mem_cons.2 ⟨hc.mono le, List.forall_mem_singleton.2 hb⟩)

theorem doStatement (hlv : lv.Typed) (label : Option String) (span : Span) :
    Gives ctx K (Compiler.doStatement lv label span) (·.Typed ctx.ret ·) :=
  (loopBody hlv label).bind fun _ _ _ hb => .read (.expect _ _) fun _ =>
    (parenCondition hlv).bind fun _ _ le hc => .read (.expect _ _) fun _ =>
      statement _ (fun _ _ => trivial)
        (List.forall_mem_cons.2 ⟨hb.mono le, List.forall_mem_singleton.2 hc⟩)

theorem expressionList (hlv : lv.Typed) (stop : Operator) :
    Gives ctx K (Compiler.expressionList lv stop) fun K' is => ∀ i ∈ is, K'.Typed ctx.ret i :=
  .read (.atOp _) fun _ => .ite (fun _ => .pure nofun) fun _ =>
    .commaList (fun le h => h.mono le) fun K' _ =>
      (hlv.expression ctx K').bind fun _ _ _ h => .pure h.typed

theorem forStatement (hlv : lv.Typed) (label : Option String) (span : Span) :
    Gives ctx K (Compiler.forStatement lv label span) (·.Typed ctx.ret ·) := by
  refine inFrame true (.read (.expect _ _) fun _ => .read ?_ fun declares => ?_)
  · exact .bind .read fun _ => .bind .get fun _ => .pure _
  have continued {K₁ : Known} {init : List Instr} (hi : ∀ i ∈ init, K₁.Typed ctx.ret i) :
      Gives ctx K₁ (do
        let _ ← Compiler.expectOp .semicolon .semicolon
        let cond ← if ← Compiler.atOp .semicolon then Pure.pure none else some <$> Compiler.condition lv
        let _ ← Compiler.expectOp .semicolon .semicolon
        let next ← Compiler.expressionList lv .rightParen
        let _ ← Compiler.expectOp .rightParen .closeParen
        let body ← Compiler.loopBody lv label
        Compiler.node span (.forLoop label init cond next body)) (·.Typed ctx.ret ·) := by
    refine .read (.expect _ _) fun _ => .read (.atOp _) fun endless => ?_
    have rest {K₂ : Known} {cond : Option Instr} (le : K₁.Le K₂)
        (hc : ∀ i ∈ cond, K₂.Typed ctx.ret i) : Gives ctx K₂ (do
          let _ ← Compiler.expectOp .semicolon .semicolon
          let next ← Compiler.expressionList lv .rightParen
          let _ ← Compiler.expectOp .rightParen .closeParen
          let body ← Compiler.loopBody lv label
          Compiler.node span (.forLoop label init cond next body)) (·.Typed ctx.ret ·) := by
      refine .read (.expect _ _) fun _ => (expressionList hlv _).bind fun K₃ next le₃ hn =>
        .read (.expect _ _) fun _ => (loopBody hlv label).bind fun K₄ body le₄ hb => ?_
      refine statement _ (fun _ _ => trivial) fun i h => ?_
      rcases List.mem_append.1 h with h | h
      · rcases List.mem_append.1 h with h | h
        · rcases List.mem_append.1 h with h | h
          · exact (((hi i h).mono le).mono le₃).mono le₄
          · exact ((hc i (Option.mem_toList.1 h)).mono le₃).mono le₄
        · exact (hn i h).mono le₄
      · exact List.mem_singleton.1 h ▸ hb
    split
    · exact .pureBind (rest (.refl K₁) nofun)
    · refine (condition hlv).map.bind fun K₂ cond? le hc => rest le fun i h => ?_
      obtain ⟨cond, rfl, typed⟩ := hc
      exact Option.mem_some.1 h ▸ typed
  split
  · exact (declaration hlv).bind fun _ _ _ hd =>
      .pureBind (continued (List.forall_mem_singleton.2 hd))
  · exact (expressionList hlv _).bind fun _ _ _ hi => continued hi

theorem caseValue (hlv : lv.Typed) : Gives ctx K (Compiler.caseValue lv) fun _ _ => True := by
  refine (value hlv).bind fun K' label _ _ => .ite (fun _ => .fail _ _) fun _ => ?_
  split
  · exact .pure trivial
  · exact .fail _ _

theorem switchBody (hlv : lv.Typed) :
    Gives ctx K (Compiler.switchBody lv) fun K' r => ∀ i ∈ r.2, K'.Typed ctx.ret i := by
  refine .loop (fun K' r => ∀ i ∈ r.2, K'.Typed ctx.ret i) nofun fun K' (cases, latestFirst) _ h => ?_
  refine .read (.eatIf _) fun closing => .ite (fun _ => .pure fun i hi => ?_) fun _ => ?_
  · exact h i (List.mem_reverse.1 hi)
  · refine .read (.eatIf _) fun caseWord? => ?_
    split
    · exact (caseValue hlv).bind fun _ _ le _ => .ite (fun _ => .fail _ _) fun _ =>
        .read (.expect _ _) fun _ => .pure (typed_all le h)
    · refine .read (.eatIf _) fun defaultWord? => ?_
      split
      · exact .ite (fun _ => .fail _ _) fun _ => .read (.expect _ _) fun _ => .pure h
      · exact .read .peek? fun _ => .ite (fun _ => .read .read fun _ => .fail _ _) fun _ =>
          (hlv.statement ctx K').bind fun _ _ le typed =>
            .pure (List.forall_mem_cons.2 ⟨typed, typed_all le h⟩)

theorem switchStatement (hlv : lv.Typed) (label : Option String) (span : Span) :
    Gives ctx K (Compiler.switchStatement lv label span) (·.Typed ctx.ret ·) := by
  refine .read (.expect _ _) fun _ => (integer hlv _).bind fun K₁ value _ hv =>
    .read (.expect _ _) fun _ => .read (.expect _ _) fun _ => ?_
  refine (inFrame true (.withReader (fun _ => rfl) (switchBody hlv))).bind fun K₂ (cases, body) le hb => ?_
  exact statement _ (fun _ _ => trivial) (List.forall_mem_cons.2 ⟨hv.mono le, hb⟩)

theorem jump (isBreak : Bool) (span : Span) :
    Gives ctx K (Compiler.jump isBreak span) (·.Typed ctx.ret ·) := by
  refine .read (.eatIf _) fun label => .read .read fun _ => ?_
  split
  · exact .fail _ _
  · exact .fail _ _
  · refine .ite (fun _ => .read (.expect _ _) fun _ => ?_) fun _ => .fail _ _
    cases isBreak <;> exact statement _ (fun _ _ => trivial) nofun

theorem returnStatement (hlv : lv.Typed) (span : Span) :
    Gives ctx K (Compiler.returnStatement lv span) (·.Typed ctx.ret ·) := by
  refine .ask (.read (.atOp _) fun bare => ?_)
  have returned {K' : Known} {result : Option Instr} (checks : K'.Checks ctx.ret (.ret result))
      (hr : ∀ i ∈ result, K'.Typed ctx.ret i) : Gives ctx K' (do
        let _ ← Compiler.expectOp .semicolon .semicolon
        Compiler.node span (.ret result)) (·.Typed ctx.ret ·) :=
    .read (.expect _ _) fun _ => statement _ checks fun i hi => hr i (Option.mem_toList.1 hi)
  split
  · split
    case isTrue void => exact .pureBind (returned (fun _ _ => void) nofun)
    case isFalse => exact .failBind ..
  · split
    · exact .failBind ..
    · refine (Gives.map ((value hlv).bind fun K₁ e _ he => Gives.coerce he.1 ctx.ret span)).bind
        fun K₂ result _ h => ?_
      obtain ⟨i, rfl, typed, fits⟩ := h
      exact returned (fun _ _ => fits) fun j hj => Option.mem_some.1 hj ▸ typed

theorem catchClause (hlv : lv.Typed) (span : Span) :
    Gives ctx K (Compiler.catchClause lv span) fun K' c =>
      K'.Typed ctx.ret c.filter ∧ K'.Typed ctx.ret c.handler :=
  .read (.expect _ _) fun _ => (value hlv).bind fun _ _ _ hf => .ite (fun _ => .fail _ _) fun _ =>
    .read (.expect _ _) fun _ => (block hlv true).bind fun _ _ le hh =>
      .pure ⟨hf.1.typed.mono le, hh⟩

theorem tryStatement (hlv : lv.Typed) (span : Span) :
    Gives ctx K (Compiler.tryStatement lv span) (·.Typed ctx.ret ·) := by
  refine (block hlv true).bind fun K₁ body _ hb => ?_
  let clauses (K : Known) (cs : List (Catch Instr)) : Prop :=
    ∀ c ∈ cs, K.Typed ctx.ret c.filter ∧ K.Typed ctx.ret c.handler
  refine bind (.loop (P := clauses) clauses nofun ?read) fun K₂ cs le h => .ite (fun _ => .missing _) fun _ => ?_
  case read =>
    refine fun K' latestFirst _ h => .read (.eatIf _) fun word? => ?_
    cases word? with
    | some word =>
      refine (catchClause hlv _).bind fun K'' c le hc => .pure (List.forall_mem_cons.2 ⟨hc, ?_⟩)
      exact fun d hd => ⟨(h d hd).1.mono le, (h d hd).2.mono le⟩
    | none => exact .pure fun c hc => h c (List.mem_reverse.1 hc)
  · refine statement _ (fun _ _ => trivial) (List.forall_mem_cons.2 ⟨hb.mono le, fun i hi => ?_⟩)
    obtain ⟨c, hc, hi⟩ := List.mem_flatMap.1 hi
    exact List.forall_mem_cons.2 ⟨(h c hc).1, List.forall_mem_singleton.2 (h c hc).2⟩ i hi

theorem throwStatement (hlv : lv.Typed) (span : Span) :
    Gives ctx K (Compiler.throwStatement lv span) (·.Typed ctx.ret ·) :=
  (integer hlv _).bind fun _ _ _ h => .read (.expect _ _) fun _ =>
    statement _ (fun _ _ => trivial) (List.forall_mem_singleton.2 h)

theorem breakable? (hlv : lv.Typed) {label : Option String} {token : Token} {c : Compiler Instr}
    (h : Compiler.breakable? lv label token = some c) : Gives ctx K c (·.Typed ctx.ret ·) := by
  unfold Compiler.breakable? at h
  split at h
  · cases h
    exact whileStatement hlv _ _
  · cases h
    exact doStatement hlv _ _
  · cases h
    exact forStatement hlv _ _
  · cases h
    exact switchStatement hlv _ _
  · cases h

theorem wordStatement? (hlv : lv.Typed) {token : Token} {c : Compiler Instr}
    (h : Compiler.wordStatement? lv token = some c) : Gives ctx K c (·.Typed ctx.ret ·) := by
  unfold Compiler.wordStatement? at h
  split at h
  · cases h
    exact ifStatement hlv _
  · cases h
    exact jump _ _
  · cases h
    exact jump _ _
  · cases h
    exact returnStatement hlv _
  · cases h
    exact tryStatement hlv _
  · cases h
    exact throwStatement hlv _
  · exact breakable? hlv h

theorem labelled (hlv : lv.Typed) (label : String) :
    Gives ctx K (Compiler.labelled lv label) (·.Typed ctx.ret ·) := by
  refine .read .peek? fun token? => ?_
  split
  case h_1 c h =>
    obtain ⟨token, _, h⟩ := Option.bind_eq_some_iff.1 h
    exact .read .advance? fun _ => breakable? hlv h
  case h_2 => exact .read .here fun _ => .fail _ _

theorem statementBody (hlv : lv.Typed) :
    Gives ctx K (Compiler.statementBody lv) (·.Typed ctx.ret ·) := by
  refine .read .peek? fun token? => ?_
  split
  case h_1 => exact .read .read fun _ => .fail _ _
  case h_2 token =>
    refine .ite (fun _ => block hlv true) fun _ => .ite (fun _ => .read .advance? fun _ => ?_)
      fun _ => ?_
    · exact statement _ (fun _ _ => trivial) nofun
    · split
      case h_1 c h => exact .read .advance? fun _ => wordStatement? hlv h
      case h_2 =>
        refine .read .peekSecond? fun second? => .ite (fun _ => ?_) fun _ => ?_
        · exact .read .advance? fun _ => .read .advance? fun _ => labelled hlv _
        · refine .read (.bind .read fun _ => .bind .get fun _ => .pure _) fun declares => ?_
          split
          · exact (declaration hlv).bind fun _ _ _ h => .read (.expect _ _) fun _ => .pure h
          · refine (hlv.expression ctx K).map.bind fun _ i _ h => .read (.expect _ _) fun _ => .pure ?_
            obtain ⟨e, rfl, yields⟩ := h
            exact yields.typed

end Gives

namespace Level

theorem typed_exhausted : exhausted.Typed := by
  have tooDeep {α : Type} {ctx : Context} {K : Known} {P : Known → α → Prop} :
      Gives ctx K (do fail .tooDeep (← here)) P := .read .here fun _ => .fail _ _
  exact ⟨fun _ _ => tooDeep, fun _ _ => tooDeep, fun _ _ => tooDeep, fun _ _ _ => tooDeep,
    fun _ _ => tooDeep, fun _ _ => tooDeep⟩

theorem Typed.outward {lv : Level} (h : lv.Typed) : lv.outward.Typed where
  statement _ _ := .statementBody h
  expression _ _ := .inFrame false (.expressionBody h)
  ternary _ _ := .inFrame false (.ternaryBody h)
  binary floor _ _ := .inFrame false (.binaryBody h floor)
  unary _ _ := .inFrame false (.unaryBody h)
  primary _ _ := .inFrame false (.primaryBody h)

theorem typed_ofRoom (room : Nat) : (ofRoom room).Typed := by
  induction room with
  | zero => exact typed_exhausted
  | succ room ih => exact ih.outward

end Level
end Tickwise
