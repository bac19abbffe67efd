import Tickwise.Proofs.Compile.Expressions
set_option autoImplicit false

/-!
# Built statements

The routines for statements number the instructions that they answer, and the variables that are declared in
them. Each statement reads a token.
-/
namespace Tickwise

open Compile Compiler

/-- The instruction was made since. -/
def Instr.Made (K : Setting) (m : Next) (_ : Nat) (m' : Next) (i : Instr) : Prop := Tickwise.Made K m m' i.all

/-- The instructions of a list were made since. -/
def Instr.AllMade (K : Setting) (m : Next) (_ : Nat) (m' : Next) (is : List Instr) : Prop :=
  Tickwise.Made K m m' (is.flatMap Instr.all)

/-- In an open frame a variable is declared, or a duplicate is an error. -/
theorem ScopeStack.declare_cases (s : ScopeStack) (span : Span) (v : Variable) (hs : s.frames ≠ []) :
    s.declare span v = (false, s.recordError .duplicateSymbol span) ∨ ∃ f fs, s.frames = f :: fs ∧
      s.declare span v = (true, { s with frames := { f with vars := v :: f.vars } :: fs }) := by
  unfold declare
  split
  · exact .inl rfl
  · cases hf : s.frames with
    | nil => exact absurd hf hs
    | cons f fs => exact .inr ⟨f, fs, rfl, rfl⟩

namespace Builds

variable {α β : Type} {K : Setting} {d j k : Nat} {m m₀ m₁ : Next} {Q : Nat → Next → α → Prop} {lv : Level}
  {e : Operand} {span : Span}

theorem statement {form : Form Instr} (hspan : K.span span) (parts : Made K m₀ m (form.children.flatMap Instr.all))
    (plain : (Instr.mk m.node span form).declared? = none) (regular : form.Regular K m) :
    Builds K d k m (Compiler.node span form) (Instr.Made K m₀) := by
  refine (Builds.node span form).imp ?_
  rintro k' m' i _ ⟨rfl, rfl, rfl⟩
  exact parts.wrap hspan plain regular

theorem statementsToBrace (hlv : lv.Built K) :
    Builds K (d + 1) k m (Compiler.statementsToBrace lv) (Instr.AllMade K m) := by
  refine loop (Instr.AllMade K m) .nil fun k' m' is _ h => (eatIf _).read fun k₁ closing le _ =>
    .ite (fun _ => pure (Made.reverse_iff.2 h)) fun _ => peek?.see fun token? _ => .ite (fun _ => ?_) fun _ => ?_
  · exact .ask (fun _ _ => rfl) fun _ hend => .failAt _ (.inr hend)
  · exact (hlv.statement ..).bind fun k₂ m₂ i _ ⟨fewer, hi⟩ => pure ⟨by omega, Made.cons h hi⟩

theorem block (hlv : lv.Built K) (isScoped : Bool) : Builds K (d + 1) k m (Compiler.block lv isScoped)
    fun k' m' i => k' < k ∧ i.Made K m k' m' ∧ ∃ body, i.form = .block body := by
  refine (expect _ _).read fun k₁ opening _ ⟨hspan, fewer⟩ => ?_
  have made {k' : Nat} {m' : Next} {is : List Instr} (le : k' ≤ k₁) (h : Instr.AllMade K m k' m' is) :
      Builds K (d + 1) k' m' (Compiler.node opening.span (.block is))
        fun k' m' i => k' < k ∧ i.Made K m k' m' ∧ ∃ body, i.form = .block body := by
    refine (Builds.node opening.span (.block is)).imp ?_
    rintro _ _ _ _ ⟨rfl, rfl, rfl⟩
    exact ⟨by omega, Made.wrap h hspan rfl trivial, is, rfl⟩
  split
  · exact (inFrame true (statementsToBrace hlv)).bind fun _ _ _ le h => made le h
  · exact (statementsToBrace hlv).bind fun _ _ _ le h => made le h

theorem dimensions (hlv : lv.Built K) (base : Ty) :
    Builds K d k m (Compiler.dimensions lv base) fun _ m' r => Formed K m m' (r.2.flatMap Instr.all) := by
  refine loop (fun _ m' r => Formed K m m' (r.2.1.flatMap Instr.all)) .nil fun k' m' (ty, sizes, openEnded) _ h =>
    (eatIf _).read fun k₁ opening? _ ⟨hspan, fewer⟩ => ?_
  split
  case h_1 => exact pure h
  case h_2 opening _ =>
    have hspan := hspan opening rfl
    have fewer := fewer rfl
    refine (eatIf _).read fun k₂ closing _ _ => .ite (fun _ => ?_) fun _ => .ite (fun _ => .fail _ hspan) fun _ => ?_
    · exact (arrayOf _ (.inl hspan)).see fun _ _ => pure ⟨by omega, h⟩
    · refine (integer hlv _).bind fun k₃ m₃ size _ hi => (expect _ _).read fun k₄ _ _ _ =>
        (arrayOf _ (.inl hspan)).see fun _ _ => pure ⟨by omega, ?_⟩
      simpa using h.append hi

theorem initializer (hlv : lv.Built K) (ty : Ty) :
    Builds K d k m (Compiler.initializer lv ty) fun _ m' init => Formed K m m' (init.toList.flatMap Instr.all) := by
  refine (eatIf _).read fun _ assign? _ ⟨hspan, _⟩ => ?_
  split
  case h_1 => exact pure .nil
  case h_2 assign _ _ =>
    have hspan := hspan assign rfl
    refine (atOp _).see fun _ _ => .ite (fun _ => ?_) fun _ => ?_
    · exact (listInit hlv ty).bind fun _ _ _ _ h => pure (by simpa using h)
    · refine (value hlv).bind fun _ m₁ e _ he => ?_
      have framed : Formed K m m₁ (e.instr.all ++ []) := by rw [List.append_nil]; exact he
      exact (coerce ty hspan framed).bind fun _ _ _ _ h => pure (by simpa using h)

theorem freshVar : Builds K d k m (onScopes ScopeStack.freshVar) fun k' m' id =>
    k' = k ∧ m' = ⟨m.node, m.var + 1⟩ ∧ id = m.var ∧ K.Declares m' id := by
  refine ⟨fun {_ s} _ hs => ⟨k, ⟨m.node, m.var + 1⟩, Nat.le_refl k, ?_, rfl, rfl, hs.var, ?_⟩, fun _ _ _ _ => rfl⟩
  rotate_left
  · refine .inr ?_
    change K.base ≤ s.scopes.nextVar ∧ s.scopes.nextVar < m.var + 1
    rw [hs.var]
    exact ⟨hs.base, Nat.lt_succ_self _⟩
  exact { hs with
    var := congrArg Nat.succ hs.var
    base := Nat.le_succ_of_le hs.base
    vars := fun f hf x hx => (hs.vars f hf x hx).mono (Nat.le_succ _) }

theorem declareVar (name : String) (hspan : K.span span) (ty : Ty) :
    Builds K (d + 1) k m (Compiler.declareVar name span ty) fun k' m' id =>
      k' = k ∧ m' = ⟨m.node, m.var + 1⟩ ∧ id = m.var := by
  refine freshVar.bind ?_
  rintro _ _ id _ ⟨rfl, rfl, rfl, declares⟩
  refine ⟨fun {ctx s} _ hs => ?_, fun _ _ _ _ => rfl⟩
  have outcome := s.scopes.declare_cases span ((Slot.fresh ty).declaredAs name m.var)
    (List.ne_nil_of_length_pos (hs.depth ▸ Nat.succ_pos d))
  unfold Compiler.onScopes?
  dsimp only
  rcases outcome with again | ⟨f, fs, hf, declared⟩
  · rw [again]
    exact ⟨⟨.duplicateSymbol, span⟩, by simp [ScopeStack.recordError, hs.fine], .inl hspan⟩
  · rw [declared]
    obtain ⟨first, rest⟩ := List.forall_mem_cons.1 (hf ▸ hs.vars)
    refine ⟨_, _, Nat.le_refl _, ?_, rfl, rfl, rfl⟩
    exact { hs with
      depth := by rw [← hs.depth, hf]; rfl
      vars := List.forall_mem_cons.2 ⟨List.forall_mem_cons.2 ⟨declares, first⟩, rest⟩ }

theorem declarationItem (hlv : lv.Built K) (base : Ty) :
    Builds K (d + 1) k m (Compiler.declarationItem lv base) (Instr.Made K m) := by
  refine (expect _ _).read fun _ name _ ⟨hspan, _⟩ => (dimensions hlv base).bind fun _ m₁ (ty, sizes) _ hs => ?_
  refine (initializer hlv ty).bind fun _ m₂ init _ hi => (declareVar name.text hspan ty).bind ?_
  rintro _ _ id _ ⟨rfl, rfl, rfl⟩
  refine (Builds.node _ _).imp ?_
  rintro _ _ i _ ⟨rfl, rfl, rfl⟩
  have parts := hs.append hi
  rw [← List.flatMap_append] at parts
  exact parts.toMade.declare hspan

theorem declaration (hlv : lv.Built K) : Builds K (d + 1) k m (Compiler.declaration lv) (Instr.Made K m) := by
  refine (typeName false).read fun _ (span, base) _ ⟨hspan, _⟩ => ?_
  refine (commaList (fun m' is => Made K m m' (is.flatMap Instr.all)) .nil ?_).bind fun k' m' is _ h => ?_
  · exact fun _ m' is _ his => (declarationItem hlv base).imp fun _ _ _ _ hi => his.cons hi
  · exact statement hspan (Made.reverse_iff.1 h) rfl trivial

theorem governed (hlv : lv.Built K) : Builds K (d + 1) k m (Compiler.governed lv) (Instr.Made K m) :=
  atDeclaration.see fun _ _ => .ite (fun _ => here.see fun _ hspan => .failAt _ hspan) fun _ =>
    (hlv.statement d k m).imp fun _ _ _ _ h => h.2

theorem loopBody (hlv : lv.Built K) (label : Option String) :
    Builds K (d + 1) k m (Compiler.loopBody lv label) (Instr.Made K m) :=
  (governed hlv).withReader (fun _ => rfl) (fun _ => rfl) fun _ _ => rfl

theorem parenCondition (hlv : lv.Built K) :
    Builds K d k m (Compiler.parenCondition lv) fun _ m' i => Formed K m m' i.all :=
  (expect _ _).read fun _ _ _ _ => (condition hlv).bind fun _ _ _ _ h => (expect _ _).read fun _ _ _ _ => pure h

theorem ifStatement (hlv : lv.Built K) (hspan : K.span span) :
    Builds K (d + 1) k m (Compiler.ifStatement lv span) (Instr.Made K m) := by
  refine (parenCondition hlv).bind fun _ m₁ cond _ hc => (governed hlv).bind fun _ m₂ yes _ hy =>
    (eatIf _).read fun _ word? _ _ => ?_
  have made {k' : Nat} {m' : Next} {no : Option Instr} (hn : Made K m₂ m' (no.toList.flatMap Instr.all)) :
      Builds K (d + 1) k' m' (Compiler.node span (.branch cond yes no)) (Instr.Made K m) := by
    refine statement hspan ?_ rfl trivial
    simpa [Form.children] using hc.toMade.append (Made.append hy hn)
  split
  · refine Builds.bind (Q := fun _ m' no => Made K m₂ m' (no.toList.flatMap Instr.all)) ?_ fun _ _ _ _ => made
    exact ((governed hlv).imp fun _ _ no _ hn => by simpa [Instr.Made] using hn).map
  · exact .pureBind (made .nil)

theorem whileStatement (hlv : lv.Built K) (label : Option String) (hspan : K.span span) :
    Builds K (d + 1) k m (Compiler.whileStatement lv label span) (Instr.Made K m) := by
  refine (parenCondition hlv).bind fun _ _ cond _ hc => (loopBody hlv label).bind fun _ _ body _ hb =>
    statement hspan ?_ rfl trivial
  simpa [Form.children] using hc.toMade.append hb

theorem doStatement (hlv : lv.Built K) (label : Option String) (hspan : K.span span) :
    Builds K (d + 1) k m (Compiler.doStatement lv label span) (Instr.Made K m) := by
  refine (loopBody hlv label).bind fun _ _ body _ hb => (expect _ _).read fun _ _ _ _ =>
    (parenCondition hlv).bind fun _ _ cond _ hc => (expect _ _).read fun _ _ _ _ => statement hspan ?_ rfl trivial
  simpa [Form.children] using Made.append hb hc.toMade

theorem expressionList (hlv : lv.Built K) (stop : Operator) :
    Builds K d k m (Compiler.expressionList lv stop) fun _ m' is => Formed K m m' (is.flatMap Instr.all) := by
  refine (atOp _).see fun _ _ => .ite (fun _ => pure .nil) fun _ => ?_
  refine (commaList (fun m' is => Formed K m m' (is.flatMap Instr.all)) .nil ?_).imp fun _ _ is _ h => Formed.reverse_iff.1 h
  exact fun _ m' is _ his => (hlv.expression ..).bind fun _ _ e _ he => pure (Formed.cons his he)

theorem forStatement (hlv : lv.Built K) (label : Option String) (hspan : K.span span) :
    Builds K (d + 1) k m (Compiler.forStatement lv label span) (Instr.Made K m) := by
  refine inFrame true ((expect _ _).read fun _ _ _ _ => atDeclaration.see fun declares _ => ?_)
  have continued {k₁ : Nat} {m₁ : Next} {init : List Instr} (hi : Made K m m₁ (init.flatMap Instr.all)) :
      Builds K (d + 2) k₁ m₁ (do
        let _ ← Compiler.expectOp .semicolon .semicolon
        let cond ← if ← Compiler.atOp .semicolon then Pure.pure none else some <$> Compiler.condition lv
        let _ ← Compiler.expectOp .semicolon .semicolon
        let next ← Compiler.expressionList lv .rightParen
        let _ ← Compiler.expectOp .rightParen .closeParen
        let body ← Compiler.loopBody lv label
        Compiler.node span (.forLoop label init cond next body)) (Instr.Made K m) := by
    refine (expect _ _).read fun _ _ _ _ => (atOp _).see fun endless _ => ?_
    have rest {k₂ : Nat} {m₂ : Next} {cond : Option Instr} (hc : Made K m₁ m₂ (cond.toList.flatMap Instr.all)) :
        Builds K (d + 2) k₂ m₂ (do
          let _ ← Compiler.expectOp .semicolon .semicolon
          let next ← Compiler.expressionList lv .rightParen
          let _ ← Compiler.expectOp .rightParen .closeParen
          let body ← Compiler.loopBody lv label
          Compiler.node span (.forLoop label init cond next body)) (Instr.Made K m) := by
      refine (expect _ _).read fun _ _ _ _ => (expressionList hlv _).bind fun _ _ next _ hn =>
        (expect _ _).read fun _ _ _ _ => (loopBody hlv label).bind fun _ _ body _ hb => statement hspan ?_ rfl trivial
      simpa [Form.children] using hi.append (hc.append (hn.toMade.append hb))
    split
    · exact .pureBind (rest .nil)
    · refine Builds.bind (Q := fun _ m' cond => Made K m₁ m' (cond.toList.flatMap Instr.all)) ?_ fun _ _ _ _ => rest
      exact ((condition hlv).imp fun _ _ cond _ hc => by simpa using hc.toMade).map
  split
  · exact (declaration hlv).bind fun _ _ init _ h => .pureBind (continued (by simpa [Instr.Made] using h))
  · exact (expressionList hlv _).bind fun _ _ _ _ h => continued h.toMade

theorem caseValue (hlv : lv.Built K) : Builds K d k m (Compiler.caseValue lv) fun _ m' _ => Formed K m m' [] := by
  refine (value hlv).bind fun _ _ label _ h => .ite (fun _ => .fail _ (Operand.Formed.ranged h)) fun _ => ?_
  split
  · exact pure (Formed.forget h)
  · exact .fail _ (Operand.Formed.ranged h)

/-- The labels of a switch are distinct, and each stands in front of a statement or behind the last one. -/
structure Labels (cases : List Case) (statements : Nat) : Prop where
  nodup : (cases.map Case.value).Nodup
  starts : ∀ c ∈ cases, c.start ≤ statements

theorem Labels.add {cases : List Case} {statements : Nat} (h : Labels cases statements) {value : Option Int32}
    (new : ¬ cases.any (·.value = value) = true) : Labels (cases ++ [⟨value, statements⟩]) statements := by
  constructor
  · rw [List.map_append, List.map_singleton]
    refine List.nodup_append.2 ⟨h.nodup, List.nodup_singleton _, fun v hv w hw => ?_⟩
    rintro rfl
    obtain ⟨c, hc, same⟩ := List.mem_map.1 hv
    refine new (List.any_eq_true.2 ⟨c, hc, ?_⟩)
    simpa [same] using hw
  · refine List.forall_mem_append.2 ⟨h.starts, List.forall_mem_singleton.2 (Nat.le_refl _)⟩

theorem switchBody (hlv : lv.Built K) : Builds K (d + 1) k m (Compiler.switchBody lv) fun _ m' r =>
    Made K m m' (r.2.flatMap Instr.all) ∧ Labels r.1 r.2.length := by
  refine loop (fun _ m' r => Made K m m' (r.2.flatMap Instr.all) ∧ Labels r.1 r.2.length) ⟨.nil, .nil, nofun⟩
    fun k' m' (cases, latestFirst) _ ⟨h, labels⟩ => (eatIf _).read fun k₁ closing le _ =>
      .ite (fun _ => pure ⟨Made.reverse_iff.2 h, ?_⟩) fun _ => ?_
  · rwa [List.length_reverse]
  · refine (eatIf _).read fun k₂ caseWord? le ⟨hcase, fewer⟩ => ?_
    cases caseWord? with
    | some word =>
      have hspan := hcase word rfl
      have fewer := fewer rfl
      refine (caseValue hlv).bind fun k₃ m₃ i _ hi => .ite (fun _ => .fail _ hspan) fun new => ?_
      refine (expect _ _).read fun k₄ _ _ _ => pure ⟨by omega, ?_, labels.add new⟩
      simpa using h.append hi.toMade
    | none =>
      refine (eatIf _).read fun k₃ defaultWord? le ⟨hdefault, fewer⟩ => ?_
      cases defaultWord? with
      | some word =>
        have hspan := hdefault word rfl
        have fewer := fewer rfl
        refine .ite (fun _ => .fail _ hspan) fun new => (expect _ _).read fun k₄ _ _ _ => pure ⟨by omega, h, labels.add new⟩
      | none =>
        refine peek?.see fun _ _ => .ite (fun _ => .ask (fun _ _ => rfl) fun _ hend => .failAt _ (.inr hend)) fun _ => ?_
        refine (hlv.statement ..).bind fun k₄ m₄ i _ ⟨fewer, hi⟩ => pure ⟨by omega, Made.cons h hi, labels.nodup, fun c hc => ?_⟩
        exact Nat.le_succ_of_le (labels.starts c hc)

theorem switchStatement (hlv : lv.Built K) (label : Option String) (hspan : K.span span) :
    Builds K (d + 1) k m (Compiler.switchStatement lv label span) (Instr.Made K m) := by
  have body {k' : Nat} {m' : Next} : Builds K (d + 1) k' m' (Compiler.inFrame true <|
      MonadWithReader.withReader (fun ctx : Context => { ctx with breakables := ⟨label, false⟩ :: ctx.breakables })
        (Compiler.switchBody lv)) fun _ m'' r => Made K m' m'' (r.2.flatMap Instr.all) ∧ Labels r.1 r.2.length :=
    inFrame true ((switchBody hlv).withReader (fun _ => rfl) (fun _ => rfl) fun _ _ => rfl)
  refine (expect _ _).read fun _ _ _ _ => (integer hlv _).bind fun _ _ value _ hv => (expect _ _).read fun _ _ _ _ =>
    (expect _ _).read fun _ _ _ _ => body.bind fun _ _ (cases, body) _ ⟨hb, labels⟩ => statement hspan ?_ rfl ?_
  · simpa [Form.children] using hv.toMade.append hb
  · exact ⟨labels.nodup, labels.starts⟩

theorem jump (isBreak : Bool) (hspan : K.span span) :
    Builds K d k m (Compiler.jump isBreak span) (Instr.Made K m) := by
  refine (eatIf _).read fun _ label _ ⟨hlabel, _⟩ => .ask (fun _ _ => rfl) fun ctx _ => ?_
  split
  · exact .fail _ (hlabel _ rfl)
  · exact .fail _ hspan
  · refine .ite (fun _ => (expect _ _).read fun _ _ _ _ => ?_) fun _ => .fail _ hspan
    cases isBreak <;> exact statement hspan .nil rfl trivial

theorem returnStatement (hlv : lv.Built K) (hspan : K.span span) :
    Builds K d k m (Compiler.returnStatement lv span) (Instr.Made K m) := by
  refine .ask (fun _ _ => rfl) fun ctx _ => (atOp _).see fun bare _ => ?_
  have returned {k' : Nat} {m' : Next} {result : Option Instr}
      (hr : Formed K m m' (result.toList.flatMap Instr.all)) : Builds K d k' m' (do
        let _ ← Compiler.expectOp .semicolon .semicolon
        Compiler.node span (.ret result)) (Instr.Made K m) :=
    (expect _ _).read fun _ _ _ _ => statement hspan hr.toMade rfl trivial
  split
  · split
    · exact .pureBind (returned .nil)
    · exact .failBind _ hspan
  · split
    · exact .failBind _ hspan
    · refine Builds.bind (Q := fun _ m' result => Formed K m m' (result.toList.flatMap Instr.all)) ?_ fun _ _ _ _ => returned
      refine Builds.map ((value hlv).bind fun _ m₁ e _ he => ?_)
      have framed : Formed K m m₁ (e.instr.all ++ []) := by rw [List.append_nil]; exact he
      exact (coerce ctx.ret hspan framed).imp fun _ _ i _ hi => by simpa using hi

def clauses (cs : List (Catch Instr)) : List Instr := cs.flatMap fun c => [c.filter, c.handler]

theorem catchClause (hlv : lv.Built K) (hspan : K.span span) : Builds K (d + 1) k m (Compiler.catchClause lv span)
    fun _ m' c => Made K m m' ([c.filter, c.handler].flatMap Instr.all) := by
  refine (expect _ _).read fun _ _ _ _ => (value hlv).bind fun _ _ filter _ hf => .ite (fun _ => .fail _ hspan) fun _ =>
    (expect _ _).read fun _ _ _ _ => (block hlv true).bind fun _ _ handler _ ⟨_, hh, _⟩ => pure ?_
  simpa using Made.append (Formed.toMade hf) hh

theorem tryStatement (hlv : lv.Built K) (hspan : K.span span) :
    Builds K (d + 1) k m (Compiler.tryStatement lv span) (Instr.Made K m) := by
  refine (block hlv true).bind fun k₁ m₁ body _ ⟨_, hb, _⟩ => ?_
  let I (_ : Nat) (m' : Next) (cs : List (Catch Instr)) : Prop := Made K m₁ m' ((clauses cs).flatMap Instr.all)
  refine (loop (Q := I) I .nil ?read).bind fun _ _ cs _ h => .ite (fun _ => missing _) fun _ =>
    statement hspan ?_ rfl trivial
  case read =>
    refine fun k' m' cs _ h => (eatIf _).read fun k₂ word? _ ⟨hword, fewer⟩ => ?_
    cases word? with
    | some word =>
      have fewer := fewer rfl
      refine (catchClause hlv (hword word rfl)).bind fun k₃ m₃ c _ hc => pure ⟨by omega, ?_⟩
      simpa [I, clauses] using h.cons hc
    | none =>
      have same : ((clauses cs).flatMap Instr.all).Perm ((clauses cs.reverse).flatMap Instr.all) :=
        ((List.reverse_perm cs).symm.flatMap_right _).flatMap_right _
      exact pure (h.perm same)
  exact Made.append hb h

theorem throwStatement (hlv : lv.Built K) (hspan : K.span span) :
    Builds K d k m (Compiler.throwStatement lv span) (Instr.Made K m) := by
  refine (integer hlv _).bind fun _ _ code _ h => (expect _ _).read fun _ _ _ _ => statement hspan ?_ rfl trivial
  simpa [Form.children] using h.toMade

theorem breakable? (hlv : lv.Built K) {label : Option String} {token : Token} (hspan : K.span token.span)
    {c : Compiler Instr} (h : Compiler.breakable? lv label token = some c) :
    Builds K (d + 1) k m c (Instr.Made K m) := by
  unfold Compiler.breakable? at h
  split at h
  · cases h
    exact whileStatement hlv _ hspan
  · cases h
    exact doStatement hlv _ hspan
  · cases h
    exact forStatement hlv _ hspan
  · cases h
    exact switchStatement hlv _ hspan
  · cases h

theorem wordStatement? (hlv : lv.Built K) {token : Token} (hspan : K.span token.span) {c : Compiler Instr}
    (h : Compiler.wordStatement? lv token = some c) : Builds K (d + 1) k m c (Instr.Made K m) := by
  unfold Compiler.wordStatement? at h
  split at h
  · cases h
    exact ifStatement hlv hspan
  · cases h
    exact jump _ hspan
  · cases h
    exact jump _ hspan
  · cases h
    exact returnStatement hlv hspan
  · cases h
    exact tryStatement hlv hspan
  · cases h
    exact throwStatement hlv hspan
  · exact breakable? hlv hspan h

theorem labelled (hlv : lv.Built K) (label : String) :
    Builds K (d + 1) k m (Compiler.labelled lv label) (Instr.Made K m) := by
  refine peek?.see fun token? ht => ?_
  split
  case h_1 c h =>
    obtain ⟨token, same, h⟩ := Option.bind_eq_some_iff.1 h
    exact skip fun _ _ => breakable? hlv (ht token same).1 h
  case h_2 => exact here.see fun _ hspan => .failAt _ hspan

theorem statementBody (hlv : lv.Built K) : Builds K (d + 1) k m (Compiler.statementBody lv) fun k' m' i =>
    k' < k ∧ i.Made K m k' m' := by
  refine peek?.see fun token? ht => ?_
  split
  case h_1 => exact .ask (fun _ _ => rfl) fun _ hend => .failAt _ (.inr hend)
  case h_2 token =>
    obtain ⟨hspan, more⟩ := ht token rfl
    have later {c : Compiler Instr} (h : Builds K (d + 1) (k - 1) m c (Instr.Made K m)) :
        Builds K (d + 1) (k - 1) m c fun k' m' i => k' < k ∧ i.Made K m k' m' :=
      h.imp fun _ _ _ le h => ⟨by omega, h⟩
    refine .ite (fun _ => (block hlv true).imp fun _ _ _ _ ⟨fewer, made, _⟩ => ⟨fewer, made⟩) fun _ => .ite (fun _ => ?_) fun _ => ?_
    · exact skip fun _ _ => later (statement hspan .nil rfl trivial)
    · split
      case h_1 c h => exact skip fun _ _ => later (wordStatement? hlv hspan h)
      case h_2 =>
        refine peekSecond?.see fun second? _ => .ite (fun _ => ?_) fun _ => atDeclaration.see fun declares _ => ?_
        · exact skip fun _ _ => later (skip fun _ _ => labelled hlv _)
        · have ended {k' : Nat} {m' : Next} {i : Instr} (le : k' ≤ k) (h : Made K m m' i.all) :
              Builds K (d + 1) k' m' (do
                let _ ← Compiler.expectOp .semicolon .semicolon
                return i) fun k' m' i => k' < k ∧ i.Made K m k' m' :=
            (expect _ _).read fun _ _ _ ⟨_, fewer⟩ => pure ⟨by omega, h⟩
          split
          · exact (declaration hlv).bind fun _ _ _ le h => ended le h
          · refine Builds.bind (Q := Instr.Made K m) ?_ fun _ _ _ le h => ended le h
            refine Builds.map ((hlv.expression ..).imp fun _ _ e _ h => ?_)
            exact Formed.toMade h

end Builds

namespace Level

variable {K : Setting}

theorem built_exhausted (K : Setting) : exhausted.Built K := by
  have tooDeep {α : Type} {d k : Nat} {m : Next} {Q : Nat → Next → α → Prop} :
      Builds K d k m (do fail .tooDeep (← here)) Q :=
    Builds.here.see fun _ hspan => .failAt _ hspan
  exact ⟨fun _ _ _ => tooDeep, fun _ _ _ => tooDeep, fun _ _ _ => tooDeep, fun _ _ _ _ => tooDeep,
    fun _ _ _ => tooDeep, fun _ _ _ => tooDeep⟩

theorem Built.outward {lv : Level} (h : lv.Built K) : lv.outward.Built K where
  statement _ _ _ := .statementBody h
  expression _ _ _ := .inFrame false (.expressionBody h)
  ternary _ _ _ := .inFrame false (.ternaryBody h)
  binary floor _ _ _ := .inFrame false (.binaryBody h floor)
  unary _ _ _ := .inFrame false (.unaryBody h)
  primary _ _ _ := .inFrame false (.primaryBody h)

theorem built_ofRoom (K : Setting) (room : Nat) : (ofRoom room).Built K := by
  induction room with
  | zero => exact built_exhausted K
  | succ room ih => exact ih.outward

end Level
end Tickwise
