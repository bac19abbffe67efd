import Tickwise.Proofs.Compile.BesideExpressions
set_option autoImplicit false

/-!
# Statements side by side

Statements too read runs of tokens with as many left as right braces: blocks, lists in braces and the bodies of
switches close each brace that they open. So a function body is read to the end of its block.
-/
namespace Tickwise

open Compile Compiler

namespace Beside

variable {α α' β β' : Type} {K : Sides} {ts us : List Token} {depth : Nat} {lv : Level} {span span' : Span}

theorem statementsToBrace (hlv : lv.Balanced K) (h : Aligned K (depth + 1) ts us) :
    Beside K ts us (statementsToBrace lv) (statementsToBrace lv) (Inside (Aligned K depth) fun _ _ => True) := by
  refine loop (Inside (Aligned K (depth + 1)) fun _ _ => True) ⟨h, trivial⟩ fun ts us _ _ ⟨h, _⟩ => ?_
  refine (eatRightBrace h).bind ?_
  rintro ts us _ _ (⟨_, _, rfl, rfl, h⟩ | ⟨rfl, rfl, h⟩)
  · exact pure ⟨h, trivial⟩
  · refine peek?.see ?_
    rintro _ _ ⟨rfl, rfl⟩
    obtain ⟨_, _, _, _, rfl, rfl, -⟩ := h.heads
    exact (hlv.statement h).next fun h _ => pure ⟨h, trivial⟩

theorem block (isScoped : Bool) (hlv : lv.Balanced K)
    (hopen : Beside K ts us (Compiler.expectOp .leftBrace .openBrace) (Compiler.expectOp .leftBrace .openBrace)
      (Inside (Aligned K (depth + 1)) (Token.Alike K.R))) :
    Beside K ts us (block lv isScoped) (block lv isScoped) (Inside (Aligned K depth) fun _ _ => True) := by
  refine hopen.next fun h _ => ?_
  cases isScoped with
  | true => exact (inFrame true (statementsToBrace hlv h)).next fun h _ => emit h
  | false => exact (statementsToBrace hlv h).next fun h _ => emit h

theorem dimensions (hlv : lv.Balanced K) (base : Ty) :
    Compiler.Balanced K (dimensions lv base) fun a b => b.1 = a.1 := fun {depth _ _} h => by
  refine loop (Inside (Aligned K (depth + 1)) fun a b => b.1 = a.1 ∧ b.2.2 = a.2.2) ⟨h, rfl, rfl⟩ ?_
  rintro ts us ⟨_, sizes, _⟩ ⟨ty, sizes', openEnded⟩ ⟨h, rfl, rfl⟩
  refine (eatOp h .leftBracket rfl).next fun h opening => ?_
  cases opening with
  | none => exact pure ⟨h, rfl⟩
  | some same =>
    obtain ⟨_, _, hspan⟩ := same
    refine (eatOp h .rightBracket rfl).next fun h closing => ?_
    cases closing with
    | some =>
      refine (arrayOf _ hspan).see ?_
      rintro _ _ rfl
      exact pure ⟨h, rfl, rfl⟩
    | none =>
      refine .ite (fun closed => nomatch closed) fun _ => .ite (fun _ => .fail _ hspan) fun _ =>
        (integer hlv _ h).next fun h _ => (expectOp h .rightBracket rfl).next fun h _ => ?_
      refine (arrayOf _ hspan).see ?_
      rintro _ _ rfl
      exact pure ⟨h, rfl, rfl⟩

theorem initializer (hlv : lv.Balanced K) (ty : Ty) :
    Compiler.Balanced K (initializer lv ty) fun _ _ => True := fun h => by
  refine (eatOp h .assign rfl).next fun h assign => ?_
  cases assign with
  | none => exact pure ⟨h, trivial⟩
  | some same =>
    obtain ⟨_, _, hspan⟩ := same
    refine (atOp (Region.heads h) .leftBrace).see ?_
    rintro _ opens ⟨-, rfl⟩
    refine .ite (fun _ => (listInit hlv ty h).next fun h _ => pure ⟨h, trivial⟩) fun _ =>
      (value hlv h).next fun h he => (coerce ty h hspan he).next fun h _ => pure ⟨h, trivial⟩

theorem declareVar (name : String) (ty : Ty) (hspan : K.R span span') :
    Beside K ts us (declareVar name span ty) (declareVar name span' ty) (Here ts us fun _ _ => True) := by
  refine (onScopes (A := fun _ _ => True) fun s t same => ⟨{ same with }, trivial⟩).see fun id id' _ => ?_
  refine onScopes? fun s t same => ?_
  obtain ⟨answer, scopes⟩ := same.declare hspan (v := (Slot.fresh ty).declaredAs name id)
    (w := (Slot.fresh ty).declaredAs name id') ⟨rfl, rfl⟩
  refine ⟨scopes, ?_⟩
  dsimp only
  rw [answer]
  split
  · exact .some trivial
  · exact .none

theorem declarationItem (hlv : lv.Balanced K) (base : Ty) :
    Compiler.Balanced K (declarationItem lv base) fun _ _ => True := fun h => by
  refine (expectIdent h).next fun h same => (dimensions hlv base h).next ?_
  rintro ts us ⟨_, sizes⟩ ⟨ty, sizes'⟩ h rfl
  obtain ⟨_, text, hspan⟩ := same
  exact (initializer hlv ty h).next fun h _ => (declareVar text ty hspan).see fun _ _ _ => emit h

theorem declaration (hlv : lv.Balanced K) : Compiler.Balanced K (declaration lv) fun _ _ => True := fun h => by
  refine (typeName h false).next ?_
  rintro ts us ⟨_, _⟩ ⟨_, base⟩ h ⟨-, rfl⟩
  exact (commaList h (declarationItem hlv base)).next fun h _ => emit h

theorem governed (hlv : lv.Balanced K) : Compiler.Balanced K (governed lv) fun _ _ => True := fun h => by
  refine (atDeclaration h).see ?_
  rintro _ starts rfl
  exact .ite (fun _ => (here (Region.heads h)).see fun _ _ hspan => .fail _ hspan) fun _ => hlv.statement h

theorem loopBody (hlv : lv.Balanced K) (label : Option String) :
    Compiler.Balanced K (loopBody lv label) fun _ _ => True := fun h =>
  withReader (governed hlv h) (fun _ => rfl) fun _ _ => rfl

theorem parenCondition (hlv : lv.Balanced K) : Compiler.Balanced K (parenCondition lv) fun _ _ => True := fun h =>
  (expectOp h .leftParen rfl).next fun h _ => (condition hlv h).next fun h _ =>
    (expectOp h .rightParen rfl).next fun h _ => pure ⟨h, trivial⟩

theorem ifStatement (hlv : lv.Balanced K) (h : Aligned K (depth + 1) ts us) :
    Beside K ts us (ifStatement lv span) (ifStatement lv span') (Inside (Aligned K (depth + 1)) fun _ _ => True) := by
  refine (parenCondition hlv h).next fun h _ => (governed hlv h).next fun h _ => ?_
  refine (eatWord h .elseWord).next fun h word => ?_
  cases word with
  | none => exact emit h
  | some => exact (mapAny (governed hlv h)).next fun h _ => emit h

theorem whileStatement (hlv : lv.Balanced K) (label : Option String) (h : Aligned K (depth + 1) ts us) :
    Beside K ts us (whileStatement lv label span) (whileStatement lv label span')
      (Inside (Aligned K (depth + 1)) fun _ _ => True) :=
  (parenCondition hlv h).next fun h _ => (loopBody hlv label h).next fun h _ => emit h

theorem doStatement (hlv : lv.Balanced K) (label : Option String) (h : Aligned K (depth + 1) ts us) :
    Beside K ts us (doStatement lv label span) (doStatement lv label span')
      (Inside (Aligned K (depth + 1)) fun _ _ => True) :=
  (loopBody hlv label h).next fun h _ => (expect h (.word .whileWord) _).next fun h _ =>
    (parenCondition hlv h).next fun h _ => (expectOp h .semicolon rfl).next fun h _ => emit h

theorem expressionList (hlv : lv.Balanced K) (stop : Operator) :
    Compiler.Balanced K (expressionList lv stop) fun _ _ => True := fun h => by
  refine (atOp (Region.heads h) stop).see ?_
  rintro _ stops ⟨-, rfl⟩
  refine .ite (fun _ => pure ⟨h, trivial⟩) fun _ => ?_
  refine (commaList (A := fun _ _ => True) h fun h => ?_).imp fun _ _ _ _ kept => ⟨kept.1, trivial⟩
  exact (hlv.expression h).next fun h _ => pure ⟨h, trivial⟩

theorem forStatement (hlv : lv.Balanced K) (label : Option String) (h : Aligned K (depth + 1) ts us) :
    Beside K ts us (forStatement lv label span) (forStatement lv label span')
      (Inside (Aligned K (depth + 1)) fun _ _ => True) := by
  refine inFrame true ((expectOp h .leftParen rfl).next fun h _ => (atDeclaration h).see ?_)
  extract_lets begun begun'
  have hbegun {ts us : List Token} {init init' : List Instr} (h : Aligned K (depth + 1) ts us) :
      Beside K ts us (begun init) (begun' init') (Inside (Aligned K (depth + 1)) fun _ _ => True) := by
    refine (expectOp h .semicolon rfl).next fun h _ => (atOp (Region.heads h) .semicolon).see ?_
    extract_lets checked checked'
    have hchecked {ts us : List Token} {cond cond' : Option Instr} (h : Aligned K (depth + 1) ts us) :
        Beside K ts us (checked cond) (checked' cond') (Inside (Aligned K (depth + 1)) fun _ _ => True) :=
      (expectOp h .semicolon rfl).next fun h _ => (expressionList hlv .rightParen h).next fun h _ =>
        (expectOp h .rightParen rfl).next fun h _ => (loopBody hlv label h).next fun h _ => emit h
    rintro _ endless ⟨-, rfl⟩
    exact .ite (fun _ => hchecked h) fun _ => (mapAny (condition hlv h)).next fun h _ => hchecked h
  rintro _ declares rfl
  exact .ite (fun _ => (declaration hlv h).next fun h _ => hbegun h) fun _ =>
    (expressionList hlv .semicolon h).next fun h _ => hbegun h

theorem caseValue (hlv : lv.Balanced K) : Compiler.Balanced K (caseValue lv) fun a b => b = a := fun h => by
  refine (value hlv h).next fun h he => ?_
  obtain ⟨ty, constant, hi⟩ := he
  refine .ite (fun _ => .fail _ hi.span) fun _ => ?_
  dsimp only
  split
  · exact pure ⟨h, rfl⟩
  · exact .fail _ hi.span

theorem switchBody (hlv : lv.Balanced K) (h : Aligned K (depth + 1) ts us) :
    Beside K ts us (switchBody lv) (switchBody lv) (Inside (Aligned K depth) fun _ _ => True) := by
  refine loop (Inside (Aligned K (depth + 1)) fun a b => b.1 = a.1 ∧ b.2.length = a.2.length) ⟨h, rfl, rfl⟩ ?_
  rintro ts us ⟨_, latestFirst⟩ ⟨cases, latestFirst'⟩ ⟨h, rfl, lengths⟩
  refine (eatRightBrace h).bind ?_
  rintro ts us _ _ (⟨_, _, rfl, rfl, h⟩ | ⟨rfl, rfl, h⟩)
  · exact pure ⟨h, trivial⟩
  · refine .ite (fun closed => nomatch closed) fun _ => (eatWord h .caseWord).next fun h word => ?_
    cases word with
    | some same =>
      obtain ⟨_, _, hspan⟩ := same
      refine (caseValue hlv h).next ?_
      rintro ts us _ i h rfl
      exact .ite (fun _ => .fail _ hspan) fun _ => (expectOp h .colon rfl).next fun h _ =>
        pure ⟨h, by dsimp only; rw [lengths], lengths⟩
    | none =>
      refine (eatWord h .defaultWord).next fun h word => ?_
      cases word with
      | some same =>
        obtain ⟨_, _, hspan⟩ := same
        exact .ite (fun _ => .fail _ hspan) fun _ => (expectOp h .colon rfl).next fun h _ =>
          pure ⟨h, by dsimp only; rw [lengths], lengths⟩
      | none =>
        refine peek?.see ?_
        rintro _ _ ⟨rfl, rfl⟩
        obtain ⟨_, _, _, _, rfl, rfl, -⟩ := h.heads
        exact (hlv.statement h).next fun h _ => pure ⟨h, rfl, congrArg (· + 1) lengths⟩

theorem switchStatement (hlv : lv.Balanced K) (label : Option String) (h : Aligned K (depth + 1) ts us) :
    Beside K ts us (switchStatement lv label span) (switchStatement lv label span')
      (Inside (Aligned K (depth + 1)) fun _ _ => True) :=
  (expectOp h .leftParen rfl).next fun h _ => (integer hlv _ h).next fun h _ =>
    (expectOp h .rightParen rfl).next fun h _ => (expectLeftBrace h).next fun h _ =>
      (inFrame true (withReader (f := fun ctx => { ctx with breakables := ⟨label, false⟩ :: ctx.breakables })
        (switchBody hlv h) (fun _ => rfl) fun _ _ => rfl)).next fun h _ => emit h

theorem jump (isBreak : Bool) (hspan : K.R span span') (h : Aligned K (depth + 1) ts us) :
    Beside K ts us (jump isBreak span) (jump isBreak span') (Inside (Aligned K (depth + 1)) fun _ _ => True) := by
  have leave {ts us : List Token} (target : Breakable) (label label' : Option String)
      (h : Aligned K (depth + 1) ts us) : Beside K ts us
        (if isBreak ∨ target.isLoop then do
          let _ ← Compiler.expectOp .semicolon .semicolon
          Compiler.node span (if isBreak then .breakTo label else .continueTo label)
        else Compiler.fail .outsideLoop span)
        (if isBreak ∨ target.isLoop then do
          let _ ← Compiler.expectOp .semicolon .semicolon
          Compiler.node span' (if isBreak then .breakTo label' else .continueTo label')
        else Compiler.fail .outsideLoop span') (Inside (Aligned K (depth + 1)) fun _ _ => True) :=
    .ite (fun _ => (expectOp h .semicolon rfl).next fun h _ => emit h) fun _ => .fail _ hspan
  refine (eat h .identifier).next fun h same => .ask fun ctx _ => ?_
  cases same with
  | none =>
    dsimp only
    generalize jumpTarget? _ _ _ = target
    cases target with
    | none => exact .fail _ hspan
    | some target => exact leave target _ _ h
  | some same =>
    obtain ⟨_, text, hlabel⟩ := same
    dsimp only [Option.map_some]
    generalize jumpTarget? _ _ _ = target
    cases target with
    | none => exact .fail _ hlabel
    | some target => exact leave target _ _ h

theorem returnStatement (hlv : lv.Balanced K) (hspan : K.R span span') (h : Aligned K (depth + 1) ts us) :
    Beside K ts us (returnStatement lv span) (returnStatement lv span')
      (Inside (Aligned K (depth + 1)) fun _ _ => True) := by
  refine .ask fun ctx _ => ?_
  extract_lets ret found ret' found'
  have hfound {ts us : List Token} {result result' : Option Instr} (h : Aligned K (depth + 1) ts us) :
      Beside K ts us (found result) (found' result') (Inside (Aligned K (depth + 1)) fun _ _ => True) :=
    (expectOp h .semicolon rfl).next fun h _ => emit h
  refine (atOp (Region.heads h) .semicolon).see ?_
  rintro _ bare ⟨-, rfl⟩
  refine .ite (fun _ => .ite (fun _ => hfound h) fun _ => fails _ hspan) fun _ => ?_
  refine .ite (fun _ => fails _ hspan) fun _ => ?_
  exact (mapAny <| (value hlv h).next fun h he => coerce ret h hspan he).next fun h _ => hfound h

theorem catchClause (hlv : lv.Balanced K) (hspan : K.R span span') (h : Aligned K (depth + 1) ts us) :
    Beside K ts us (catchClause lv span) (catchClause lv span') (Inside (Aligned K (depth + 1)) fun _ _ => True) := by
  refine (expectOp h .leftParen rfl).next fun h _ => (value hlv h).next fun h he => ?_
  obtain ⟨ty, constant, hi⟩ := he
  exact .ite (fun _ => .fail _ hspan) fun _ => (expectOp h .rightParen rfl).next fun h _ =>
    (block true hlv (expectLeftBrace h)).next fun h _ => pure ⟨h, trivial⟩

theorem tryStatement (hlv : lv.Balanced K) (h : Aligned K (depth + 1) ts us) :
    Beside K ts us (tryStatement lv span) (tryStatement lv span') (Inside (Aligned K (depth + 1)) fun _ _ => True) := by
  refine (block true hlv (expectLeftBrace h)).next fun h _ => ?_
  refine next (G := Aligned K (depth + 1)) (A := fun a b => b.isEmpty = a.isEmpty)
    (loop (Inside (Aligned K (depth + 1)) fun a b => b.isEmpty = a.isEmpty) ⟨h, rfl⟩ ?_) ?_
  · rintro ts us catches catches' ⟨h, same⟩
    refine (eatWord h .catchWord).next fun h word => ?_
    cases word with
    | none => exact pure ⟨h, by dsimp only; rwa [List.isEmpty_reverse, List.isEmpty_reverse]⟩
    | some same =>
      obtain ⟨_, _, hspan⟩ := same
      exact (catchClause hlv hspan h).next fun h _ => pure ⟨h, rfl⟩
  · rintro ts us catches catches' h same
    rw [same]
    exact .ite (fun _ => missing _ (Region.heads h)) fun _ => emit h

theorem throwStatement (hlv : lv.Balanced K) (h : Aligned K (depth + 1) ts us) :
    Beside K ts us (throwStatement lv span) (throwStatement lv span')
      (Inside (Aligned K (depth + 1)) fun _ _ => True) :=
  (integer hlv _ h).next fun h _ => (expectOp h .semicolon rfl).next fun h _ => emit h

theorem breakable? (hlv : lv.Balanced K) (label : Option String) {t u : Token} (same : t.Alike K.R u) :
    breakable? lv label t = none ∧ breakable? lv label u = none ∨
      ∃ c d, breakable? lv label t = some c ∧ breakable? lv label u = some d ∧ (∀ op, t.kind ≠ .operator op) ∧
        ∀ {depth : Nat} {ts us : List Token}, Aligned K (depth + 1) ts us →
          Beside K ts us c d (Inside (Aligned K (depth + 1)) fun _ _ => True) := by
  obtain ⟨kind, text, hspan⟩ := same
  cases kind with
  | keyword word =>
    cases word with
    | whileWord => exact .inr ⟨_, _, rfl, rfl, nofun, whileStatement hlv label⟩
    | doWord => exact .inr ⟨_, _, rfl, rfl, nofun, doStatement hlv label⟩
    | forWord => exact .inr ⟨_, _, rfl, rfl, nofun, forStatement hlv label⟩
    | switchWord => exact .inr ⟨_, _, rfl, rfl, nofun, switchStatement hlv label⟩
    | _ => exact .inl ⟨rfl, rfl⟩
  | _ => exact .inl ⟨rfl, rfl⟩

theorem wordStatement? (hlv : lv.Balanced K) {t u : Token} (same : t.Alike K.R u) :
    wordStatement? lv t = none ∧ wordStatement? lv u = none ∨
      ∃ c d, wordStatement? lv t = some c ∧ wordStatement? lv u = some d ∧ (∀ op, t.kind ≠ .operator op) ∧
        ∀ {depth : Nat} {ts us : List Token}, Aligned K (depth + 1) ts us →
          Beside K ts us c d (Inside (Aligned K (depth + 1)) fun _ _ => True) := by
  have breaks := breakable? hlv none same
  obtain ⟨kind, text, hspan⟩ := same
  cases kind with
  | keyword word =>
    cases word with
    | ifWord => exact .inr ⟨_, _, rfl, rfl, nofun, ifStatement hlv⟩
    | breakWord => exact .inr ⟨_, _, rfl, rfl, nofun, jump true hspan⟩
    | continueWord => exact .inr ⟨_, _, rfl, rfl, nofun, jump false hspan⟩
    | returnWord => exact .inr ⟨_, _, rfl, rfl, nofun, returnStatement hlv hspan⟩
    | tryWord => exact .inr ⟨_, _, rfl, rfl, nofun, tryStatement hlv⟩
    | throwWord => exact .inr ⟨_, _, rfl, rfl, nofun, throwStatement hlv⟩
    | _ => exact breaks
  | _ => exact breaks

theorem labelled (hlv : lv.Balanced K) (label : String) :
    Compiler.Balanced K (labelled lv label) fun _ _ => True := fun h => by
  refine peek?.see ?_
  rintro _ _ ⟨rfl, rfl⟩
  obtain ⟨t, u, ts, us, rfl, rfl, same, -⟩ := h.heads
  dsimp only [List.head?_cons, Option.bind_some]
  obtain ⟨left, right⟩ | ⟨c, d, left, right, plain, begun⟩ := breakable? hlv (some label) same
  · rw [left, right]
    exact (here (Region.heads h)).see fun _ _ hspan => .fail _ hspan
  · rw [left, right]
    exact skip (begun (h.tail fun op kind => (plain op kind).elim))

theorem statementBody (hlv : lv.Balanced K) :
    Compiler.Balanced K (statementBody lv) fun _ _ => True := fun {depth _ _} h => by
  refine peek?.see ?_
  rintro _ _ ⟨rfl, rfl⟩
  obtain ⟨t, u, ts, us, rfl, rfl, same, -⟩ := h.heads
  have words := wordStatement? hlv same
  dsimp only [List.head?_cons]
  rw [← same.isOp, ← same.isOp, ← same.kind, ← same.text]
  refine .ite (fun _ => block true hlv (expectLeftBrace h)) fun _ => .ite (fun ends => ?_) fun _ => ?_
  · exact skip (emit (h.behind rfl ends))
  obtain ⟨left, right⟩ | ⟨c, d, left, right, plain, begun⟩ := words
  · rw [left, right]
    refine peekSecond?.see ?_
    rintro _ _ ⟨rfl, rfl⟩
    have plainly : Beside K (t :: ts) (u :: us)
        (do
          let instr ← if ← Compiler.atDeclaration then Compiler.declaration lv else Operand.instr <$> lv.expression
          let _ ← Compiler.expectOp .semicolon .semicolon
          return instr)
        (do
          let instr ← if ← Compiler.atDeclaration then Compiler.declaration lv else Operand.instr <$> lv.expression
          let _ ← Compiler.expectOp .semicolon .semicolon
          return instr) (Inside (Aligned K (depth + 1)) fun _ _ => True) := by
      refine (atDeclaration h).see ?_
      rintro _ declares rfl
      have ended {ts us : List Token} {i j : Instr} (h : Aligned K (depth + 1) ts us) :
          Beside K ts us (do let _ ← Compiler.expectOp .semicolon .semicolon; return i)
            (do let _ ← Compiler.expectOp .semicolon .semicolon; return j)
            (Inside (Aligned K (depth + 1)) fun _ _ => True) :=
        (expectOp h .semicolon rfl).next fun h _ => pure ⟨h, trivial⟩
      exact .ite (fun _ => (declaration hlv h).next fun h _ => ended h) fun _ =>
        (mapAny (hlv.expression h)).next fun h _ => ended h
    have behind (named : t.kind = .identifier) := h.tail (Token.Test.identifier.admitted (decide_eq_true named))
    refine ifs (and_congr_right fun named => ?_) (fun labels => ?_) fun _ => plainly
    · obtain ⟨_, _, _, _, rfl, rfl, same, -⟩ := (behind named).heads
      dsimp only [List.getElem?_cons_succ, List.getElem?_cons_zero, Option.any_some]
      rw [same.isOp]
    · have h := behind labels.1
      obtain ⟨_, _, _, _, rfl, rfl, -⟩ := h.heads
      exact skip (skip (labelled hlv _ (h.behind rfl labels.2)))
  · rw [left, right]
    exact skip (begun (h.tail fun op kind => (plain op kind).elim))

end Beside

namespace Level.Balanced

variable {K : Sides} {lv : Level}

theorem exhausted : exhausted.Balanced K := by
  have tooDeep {α : Type} {A : α → α → Prop} : Compiler.Balanced K (do fail .tooDeep (← here)) A := fun h =>
    (Beside.here (Region.heads h)).see fun _ _ hspan => .fail _ hspan
  exact ⟨tooDeep, tooDeep, tooDeep, fun _ => tooDeep, tooDeep, tooDeep⟩

theorem outward (hlv : lv.Balanced K) : (outward lv).Balanced K where
  statement := Beside.statementBody hlv
  expression h := .inFrame false (Beside.expressionBody hlv h)
  ternary h := .inFrame false (Beside.ternaryBody hlv h)
  binary floor _ _ _ h := .inFrame false (Beside.binaryBody hlv floor h)
  unary h := .inFrame false (Beside.unaryBody hlv h)
  primary h := .inFrame false (Beside.primaryBody hlv h)

theorem ofRoom (room : Nat) : (ofRoom room).Balanced K := by
  induction room with
  | zero => exact exhausted
  | succ room ih => exact ih.outward

end Level.Balanced

/-- Parameters of the same names and types. -/
def Compile.ParamsAlike (R : Span → Span → Prop) : List (Token × Ty) → List (Token × Ty) → Prop :=
  List.Forall₂ fun p q => p.1.Alike R q.1 ∧ q.2 = p.2

namespace Compile.ParamsAlike

variable {R : Span → Span → Prop} {ps qs : List (Token × Ty)}

theorem texts (h : ParamsAlike R ps qs) : (ps.map fun p => p.1.text) = qs.map fun q => q.1.text := by
  induction h with
  | nil => rfl
  | cons first _ ih => rw [List.map_cons, List.map_cons, first.1.text, ih]

theorem types (h : ParamsAlike R ps qs) : ps.map Prod.snd = qs.map Prod.snd := by
  induction h with
  | nil => rfl
  | cons first _ ih => rw [List.map_cons, List.map_cons, first.2, ih]

end Compile.ParamsAlike

namespace Beside

variable {K : Sides} {ts us : List Token}

theorem declareParameters {params params' : List (Token × Ty)} (same : ParamsAlike K.R params params') :
    Beside K ts us (declareParameters params) (declareParameters params') (Here ts us fun _ _ => True) := by
  induction same with
  | nil => exact pure ⟨rfl, rfl, trivial⟩
  | @cons p q _ _ first _ ih =>
    obtain ⟨_, _⟩ := p
    obtain ⟨_, ty⟩ := q
    obtain ⟨⟨_, text, hspan⟩, rfl⟩ := first
    exact (declareVar text ty hspan).see fun _ _ _ => ih.see fun _ _ _ => pure ⟨rfl, rfl, trivial⟩

theorem functionBody {h h' : Header} {t u : Token} {ts₀ us₀ : List Token}
    (params : ParamsAlike K.R h.params h'.params) (left : h.body = t :: ts)
    (right : h'.body = u :: us) (same : t.Alike K.R u) (more : Aligned K 1 ts us) :
    Beside K ts₀ us₀ (functionBody h) (functionBody h') (Inside (Aligned K 0) fun _ _ => True) := by
  have opening : Beside K (t :: ts) (u :: us) (Compiler.expectOp .leftBrace .openBrace)
      (Compiler.expectOp .leftBrace .openBrace) (Inside (Aligned K 1) (Token.Alike K.R)) := by
    refine (eatIf (fun same => same.isOp _) (.some ts us same)).bind ?_
    rintro _ _ _ _ (⟨t, u, rfl, rfl, -, same, heads, heads'⟩ | ⟨rfl, rfl, rfl, rfl⟩)
    · cases heads
      cases heads'
      exact pure ⟨more, same⟩
    · exact missing _ (.some ts us same)
  refine ⟨fun ctx s s' stop _ _ scopes => ?_⟩
  have both := inFrame true <| (declareParameters (K := K) params).see fun params params' _ =>
    (block false (.ofRoom maxNesting) opening).next fun {_ _ body body'} closed _ =>
      pure (Q := Inside (Aligned K 0) fun _ _ => True)
        (a := (⟨h.id, h.name, params, h.ret, body, h.isExtern, h.span⟩ : Function))
        (b := (⟨h'.id, h'.name, params', h'.ret, body', h'.isExtern, h'.span⟩ : Function)) ⟨closed, trivial⟩
  exact both.ends _ (s := { s with rest := h.body }) (t := { s' with rest := h'.body }) stop left right scopes

end Beside
end Tickwise
