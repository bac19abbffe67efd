import Tickwise.Proofs.Compile.Height
import Tickwise.Proofs.Compile.Rooms
set_option autoImplicit false

/-!
# The height of the expressions of a program

Statements are nested in the same room as expressions. So no expression in a program nests deeper than the limit,
wherever it stands, and what a limit keeps out is rejected as nested too deeply.
-/
namespace Tickwise

open Compile Compiler

/-- The forms that an expression compiles to. A braced list is a part of its declaration. -/
def Form.isExpression {ι : Type} : Form ι → Bool
  | .literal _ | .load _ | .store .. | .step .. | .binary .. | .logical .. | .unary .. | .ternary .. | .convert .. |
    .call .. | .new _ => true
  | _ => false

/-- Every expression in the tree of an instruction nests at most so many levels. -/
def Instr.Shallow (levels : Nat) (i : Instr) : Prop := ∀ j ∈ i.all, j.form.isExpression = true → j.Nests levels

namespace Instr

variable {m n : Nat} {i : Instr}

theorem Nests.shallow (h : i.Nests n) : i.Shallow (n + 1) := fun _ hj _ => h.within hj

theorem Shallow.mono (h : i.Shallow m) (le : m ≤ n) : i.Shallow n := fun j hj expr => (h j hj expr).mono le

end Instr

namespace Level

/-- The routines of a level answer statements whose expressions nest in its room. -/
structure Bounds (lv : Level) : Prop extends lv.Reaches where
  statement : ∀ {env bs}, Emits env bs lv.statement (·.Shallow lv.room)

namespace Bounds

variable {env : Environment} {bs : List Breakable} {lv : Level} {e : Operand} {span : Span} {n : Nat}

/-- The expressions in a statement one level of nesting further out than the routines for its parts. -/
def Whole (lv : Level) (i : Instr) : Prop := i.Shallow (lv.room + 1)

/-- An instruction that is no expression adds none to those in its parts. -/
theorem node {form : Form Instr} (plain : form.isExpression = false) (parts : ∀ c ∈ form.children, c.Shallow n) :
    Emits env bs (Compiler.node span form) (·.Shallow n) := by
  refine ⟨fun {_ s _ _} _ _ hc => ?_⟩
  cases hc
  intro j hj expr
  rw [Instr.all_eq, List.mem_cons, List.mem_flatMap] at hj
  obtain rfl | ⟨c, hc, hj⟩ := hj
  · exact absurd (plain.symm.trans expr) nofun
  · exact parts c hc j hj expr

theorem blockOf (isScoped : Bool) (h : ∀ {bs}, Emits env bs lv.statement (·.Shallow n)) :
    Emits env bs (Compiler.block lv isScoped) (·.Shallow n) := by
  have statements : Emits env bs (Compiler.statementsToBrace lv) fun is => ∀ i ∈ is, i.Shallow n := by
    refine .loop (fun is => ∀ i ∈ is, i.Shallow n) nofun fun is all => .next fun _ =>
      .ite (fun _ => .pure fun i hi => all i (List.mem_reverse.1 hi)) fun _ => .next fun _ =>
        .ite (fun _ => .next fun _ => .fail _ _) fun _ => ?_
    exact h.bind fun _ made => .pure (List.forall_mem_cons.2 ⟨made, all⟩)
  refine .next fun opening => ?_
  split
  · exact (Emits.inFrame true statements).bind fun _ all => node rfl all
  · exact statements.bind fun _ all => node rfl all

theorem condition (hlv : lv.Bounds) : Emits env bs (Compiler.condition lv) (Whole lv) :=
  Reaches.imp hlv.toReaches.condition fun _ => Instr.Nests.shallow

theorem integer (hlv : lv.Bounds) (cause : CompileError.Cause) : Emits env bs (Compiler.integer lv cause) (Whole lv) :=
  Reaches.imp (hlv.toReaches.integer cause) fun _ made => (made.mono (Nat.sub_le _ 1)).shallow

theorem statement_whole (hlv : lv.Bounds) : Emits env bs lv.statement (Whole lv) :=
  Reaches.imp hlv.statement fun _ made => made.mono (by omega)

theorem converted (hlv : lv.Bounds) (target : Ty) (at_ : Operand → Span) :
    Emits env bs (do let e ← Compiler.value lv; Compiler.coerce e target (at_ e)) (Whole lv) :=
  hlv.toReaches.value.bind fun _ made =>
    Reaches.imp (Reaches.coerce made target _) fun _ => Instr.Nests.shallow

theorem listInit (hlv : lv.Bounds) (ty : Ty) : Emits env bs (Compiler.listInit lv ty) (Whole lv) := by
  induction ty with
  | array elem ih =>
    unfold Compiler.listInit
    refine .next fun opening => .next fun closing? => ?_
    split
    · exact node rfl fun i hi => absurd hi List.not_mem_nil
    · exact (Emits.commaList (.next fun inner => .ite (fun _ => ih) fun _ => converted hlv elem _)).bind fun _ all =>
        .next fun _ => node rfl all
  | _ =>
    unfold Compiler.listInit
    exact .next fun _ => .fail _ _

theorem block (hlv : lv.Bounds) : Emits env bs (Compiler.block lv true) (Whole lv) :=
  blockOf true (statement_whole hlv)

theorem declarationItem (hlv : lv.Bounds) (base : Ty) : Emits env bs (Compiler.declarationItem lv base) (Whole lv) := by
  have sized : Emits env bs (Compiler.dimensions lv base) fun r => ∀ i ∈ r.2, Whole lv i := by
    refine .loop (fun r => ∀ i ∈ r.2.1, Whole lv i) nofun fun (_, sizes, _) h => .next fun opening? => ?_
    split
    case h_1 => exact .pure h
    case h_2 opening =>
      refine .next fun closing => .ite (fun _ => .next fun _ => .pure h) fun _ => .ite (fun _ => .fail _ _) fun _ => ?_
      refine (integer hlv _).bind fun _ made => .next fun _ => .next fun _ => .pure ?_
      exact List.forall_mem_append.2 ⟨h, List.forall_mem_singleton.2 made⟩
  have valued (ty : Ty) : Emits env bs (Compiler.initializer lv ty) fun init => ∀ i ∈ init.toList, Whole lv i := by
    refine .next fun assign? => ?_
    split
    case h_1 => exact .pure nofun
    case h_2 assign =>
      refine .next fun _ => .ite (fun _ => ?_) fun _ => ?_
      · exact (listInit hlv ty).bind fun _ made => .pure (List.forall_mem_singleton.2 made)
      · exact hlv.toReaches.value.bind fun _ made => (Reaches.coerce made ty _).bind fun _ nests =>
          .pure (List.forall_mem_singleton.2 nests.shallow)
  exact .next fun name => sized.bind fun (ty, _) hs => (valued ty).bind fun _ hi => .next fun _ =>
    node rfl (List.forall_mem_append.2 ⟨hs, hi⟩)

theorem declaration (hlv : lv.Bounds) : Emits env bs (Compiler.declaration lv) (Whole lv) :=
  .next fun (_, base) => (Emits.commaList (declarationItem hlv base)).bind fun _ all => node rfl all

theorem governed (hlv : lv.Bounds) : Emits env bs (Compiler.governed lv) (Whole lv) :=
  .next fun _ => .ite (fun _ => .next fun _ => .fail _ _) fun _ => statement_whole hlv

theorem loopBody (hlv : lv.Bounds) (label : Option String) : Emits env bs (Compiler.loopBody lv label) (Whole lv) :=
  Emits.withReader (fun _ => rfl) (fun _ within => congrArg (List.cons ⟨label, true⟩) within) (governed hlv)

theorem parenCondition (hlv : lv.Bounds) : Emits env bs (Compiler.parenCondition lv) (Whole lv) :=
  .next fun _ => (condition hlv).bind fun _ made => .next fun _ => .pure made

theorem ifStatement (hlv : lv.Bounds) (span : Span) : Emits env bs (Compiler.ifStatement lv span) (Whole lv) := by
  refine (parenCondition hlv).bind fun cond hc => (governed hlv).bind fun yes hy => .next fun _ => ?_
  have made (no : Option Instr) (hn : ∀ i ∈ no.toList, Whole lv i) :
      Emits env bs (Compiler.node span (.branch cond yes no)) (Whole lv) :=
    node rfl (List.forall_mem_cons.2 ⟨hc, List.forall_mem_cons.2 ⟨hy, hn⟩⟩)
  split
  · exact (Emits.map (Q := fun no => ∀ i ∈ no.toList, Whole lv i) (governed hlv) fun _ made =>
      List.forall_mem_singleton.2 made).bind made
  · exact made none nofun

theorem expressionList (hlv : lv.Bounds) (stop : Operator) :
    Emits env bs (Compiler.expressionList lv stop) fun is => ∀ i ∈ is, Whole lv i :=
  .next fun _ => .ite (fun _ => .pure nofun) fun _ =>
    .commaList (hlv.expression.bind fun _ made => .pure (made.tree.shallow))

theorem forStatement (hlv : lv.Bounds) (label : Option String) (span : Span) :
    Emits env bs (Compiler.forStatement lv label span) (Whole lv) := by
  refine .inFrame true (.next fun _ => .next fun declares => ?_)
  have closed (init : List Instr) (cond : Option Instr) (hi : ∀ i ∈ init, Whole lv i)
      (hc : ∀ i ∈ cond.toList, Whole lv i) : Emits env bs (do
        let _ ← Compiler.expectOp .semicolon .semicolon
        let next ← Compiler.expressionList lv .rightParen
        let _ ← Compiler.expectOp .rightParen .closeParen
        let body ← Compiler.loopBody lv label
        Compiler.node span (.forLoop label init cond next body)) (Whole lv) := by
    refine .next fun _ => (expressionList hlv _).bind fun _ hn => .next fun _ => (loopBody hlv label).bind fun _ hb =>
      node rfl ?_
    simp only [Form.children, List.forall_mem_append, List.forall_mem_singleton]
    exact ⟨⟨⟨hi, hc⟩, hn⟩, hb⟩
  have continued (init : List Instr) (hi : ∀ i ∈ init, Whole lv i) : Emits env bs (do
      let _ ← Compiler.expectOp .semicolon .semicolon
      let cond ← if ← Compiler.atOp .semicolon then Pure.pure none else some <$> Compiler.condition lv
      let _ ← Compiler.expectOp .semicolon .semicolon
      let next ← Compiler.expressionList lv .rightParen
      let _ ← Compiler.expectOp .rightParen .closeParen
      let body ← Compiler.loopBody lv label
      Compiler.node span (.forLoop label init cond next body)) (Whole lv) := by
    refine .next fun _ => .next fun endless => ?_
    split
    · exact closed init none hi fun _ hc => absurd hc List.not_mem_nil
    · exact (Emits.map (Q := fun cond => ∀ i ∈ cond.toList, Whole lv i) (condition hlv) fun _ made =>
        List.forall_mem_singleton.2 made).bind fun cond hc => closed init cond hi hc
  split
  · exact (declaration hlv).bind fun d hd => continued [d] (List.forall_mem_singleton.2 hd)
  · exact (expressionList hlv _).bind continued

theorem switchStatement (hlv : lv.Bounds) (label : Option String) (span : Span) :
    Emits env bs (Compiler.switchStatement lv label span) (Whole lv) := by
  have labelled {bs : List Breakable} : Emits env bs (Compiler.switchBody lv) fun r => ∀ i ∈ r.2, Whole lv i := by
    refine .loop (fun r => ∀ i ∈ r.2, Whole lv i) nofun fun (cases, latestFirst) h => .next fun _ =>
      .ite (fun _ => .pure fun i hi => h i (List.mem_reverse.1 hi)) fun _ => .next fun caseWord? => ?_
    split
    · exact .next fun _ => .ite (fun _ => .fail _ _) fun _ => .next fun _ => .pure h
    · refine .next fun defaultWord? => ?_
      split
      · exact .ite (fun _ => .fail _ _) fun _ => .next fun _ => .pure h
      · exact .next fun _ => .ite (fun _ => .next fun _ => .fail _ _) fun _ =>
          (statement_whole hlv).bind fun _ made => .pure (List.forall_mem_cons.2 ⟨made, h⟩)
  refine .next fun _ => (integer hlv _).bind fun value hv => .next fun _ => .next fun _ => ?_
  refine .bind (.inFrame true (.withReader (fun _ => rfl)
    (fun _ within => congrArg (List.cons ⟨label, false⟩) within) labelled)) fun (cases, body) hb => ?_
  exact node rfl (List.forall_mem_cons.2 ⟨hv, hb⟩)

theorem jump (isBreak : Bool) (span : Span) : Emits env bs (Compiler.jump isBreak span) (Whole lv) := by
  refine .next fun word? => .next fun ctx => ?_
  split
  · exact .fail _ _
  · exact .fail _ _
  · refine .ite (fun _ => .next fun _ => node ?_ ?_) fun _ => .fail _ _
    · cases isBreak <;> rfl
    · cases isBreak <;> nofun

theorem returnStatement (hlv : lv.Bounds) (span : Span) :
    Emits env bs (Compiler.returnStatement lv span) (Whole lv) := by
  refine .next fun ctx => .next fun bare => ?_
  have returned (result : Option Instr) (hr : ∀ i ∈ result.toList, Whole lv i) : Emits env bs (do
      let _ ← Compiler.expectOp .semicolon .semicolon
      Compiler.node span (.ret result)) (Whole lv) :=
    .next fun _ => node rfl hr
  split
  · split
    · exact returned none nofun
    · exact .failBind ..
  · split
    · exact .failBind ..
    · exact (Emits.map (Q := fun result => ∀ i ∈ result.toList, Whole lv i) (converted hlv _ fun _ => span)
        fun _ made => List.forall_mem_singleton.2 made).bind returned

theorem tryStatement (hlv : lv.Bounds) (span : Span) : Emits env bs (Compiler.tryStatement lv span) (Whole lv) := by
  let clauses (cs : List (Catch Instr)) : Prop := ∀ c ∈ cs, Whole lv c.filter ∧ Whole lv c.handler
  have clause (span : Span) : Emits env bs (Compiler.catchClause lv span) fun c => Whole lv c.filter ∧ Whole lv c.handler :=
    .next fun _ => hlv.toReaches.value.bind fun _ hf => .ite (fun _ => .fail _ _) fun _ => .next fun _ =>
      (block hlv).bind fun _ hh => .pure ⟨hf.tree.shallow, hh⟩
  refine (block hlv).bind fun body hb => .bind (.loop (P := clauses) clauses nofun ?read) fun cs h =>
    .ite (fun _ => .next fun _ => .next fun _ => .fail ..) fun _ => ?_
  case read =>
    refine fun latestFirst h => .next fun word? => ?_
    cases word? with
    | some word => exact (clause _).bind fun c hc => .pure (List.forall_mem_cons.2 ⟨hc, h⟩)
    | none => exact .pure fun c hc => h c (List.mem_reverse.1 hc)
  refine node rfl (List.forall_mem_cons.2 ⟨hb, fun i hi => ?_⟩)
  obtain ⟨c, hc, hi⟩ := List.mem_flatMap.1 hi
  have both : ∀ i ∈ [c.filter, c.handler], Whole lv i := by simpa using h c hc
  exact both i hi

theorem breakable? (hlv : lv.Bounds) {label : Option String} {token : Token} {c : Compiler Instr}
    (h : Compiler.breakable? lv label token = some c) : Emits env bs c (Whole lv) := by
  unfold Compiler.breakable? at h
  split at h <;> cases h
  · exact (parenCondition hlv).bind fun _ hc => (loopBody hlv label).bind fun _ hb =>
      node rfl (List.forall_mem_cons.2 ⟨hc, List.forall_mem_singleton.2 hb⟩)
  · exact (loopBody hlv label).bind fun _ hb => .next fun _ => (parenCondition hlv).bind fun _ hc => .next fun _ =>
      node rfl (List.forall_mem_cons.2 ⟨hb, List.forall_mem_singleton.2 hc⟩)
  · exact forStatement hlv _ _
  · exact switchStatement hlv _ _

theorem wordStatement? (hlv : lv.Bounds) {token : Token} {c : Compiler Instr}
    (h : Compiler.wordStatement? lv token = some c) : Emits env bs c (Whole lv) := by
  unfold Compiler.wordStatement? at h
  split at h
  case h_7 => exact breakable? hlv h
  all_goals cases h
  · exact ifStatement hlv _
  · exact jump _ _
  · exact jump _ _
  · exact returnStatement hlv _
  · exact tryStatement hlv _
  · exact (integer hlv _).bind fun _ made => .next fun _ => node rfl (List.forall_mem_singleton.2 made)

theorem statementBody (hlv : lv.Bounds) : Emits env bs (Compiler.statementBody lv) (Whole lv) := by
  refine .next fun token? => ?_
  split
  case h_1 => exact .next fun _ => .fail _ _
  case h_2 token =>
    refine .ite (fun _ => block hlv) fun _ => .ite (fun _ => .next fun _ => node rfl nofun) fun _ => ?_
    split
    case h_1 c h => exact .next fun _ => wordStatement? hlv h
    case h_2 =>
      refine .next fun _ => .ite (fun _ => .next fun _ => .next fun _ => .next fun token? => ?_) fun _ => ?_
      · split
        case h_1 c h =>
          obtain ⟨token, _, h⟩ := Option.bind_eq_some_iff.1 h
          exact .next fun _ => breakable? hlv h
        case h_2 => exact .next fun _ => .fail _ _
      · refine .next fun declares => ?_
        split
        · exact (declaration hlv).bind fun _ made => .next fun _ => .pure made
        · exact (Emits.map (Q := Whole lv) hlv.expression fun _ made => made.tree.shallow).bind fun _ made =>
            .next fun _ => .pure made

end Bounds

theorem bounds_ofRoom (room : Nat) : (ofRoom room).Bounds := by
  induction room with
  | zero => exact ⟨reaches_ofRoom 0, .next fun _ => .fail _ _⟩
  | succ room ih => exact ⟨reaches_ofRoom (room + 1), ih.statementBody⟩

end Level

namespace Program

theorem shallow_block (room : Nat) {env : Environment} {bs : List Breakable} :
    Emits env bs (block (Level.ofRoom room) false) (·.Shallow room) := by
  refine Level.Bounds.blockOf false fun {bs} => ?_
  have statement := @Level.Bounds.statement _ (Level.bounds_ofRoom room) env bs
  rwa [Level.room_ofRoom] at statement

theorem shallow_functionBody {env : Environment} {bs : List Breakable} (h : Header) :
    Emits env bs (functionBody h) (·.body.Shallow maxNesting) :=
  .next fun _ => .inFrame true (.next fun _ => (shallow_block maxNesting).bind fun _ made => .pure made)

/-- An expression of a compiled program nests no deeper than the limit when a chain counts as one level, so without
longer chains it is no higher than that, and in any case no higher than chains within chains reach. An expression that
is accepted with more room than a limit leaves is either compiled the same within the limit, or rejected as nested
too deeply. -/
theorem heights_limited {id : String} {env : Environment} {tokens : List Token} {p : Program}
    (compiled : ofTokens id env tokens = .ok p) :
    (∀ f ∈ p.functions, ∀ i ∈ f.body.all, i.form.isExpression = true →
      i.Nests maxNesting ∧ (i.Unchained → i.Fits maxNesting) ∧ i.Fits (reach maxNesting)) ∧
    ∀ {limit room}, limit ≤ room → ∀ {ctx s e s'}, (Level.ofRoom room).expression ctx s = (some e, s') →
      (Level.ofRoom limit).expression ctx s = (some e, s') ∧ e.instr.Nests limit ∨
      ∃ span, ((Level.ofRoom limit).expression ctx s).1 = none ∧
        ((Level.ofRoom limit).expression ctx s).2.scopes = s.scopes.recordError .tooDeep span := by
  refine ⟨?_, fun {limit room} le {ctx s e s'} answered => ?_⟩
  · obtain ⟨_, fs, s, bodies, rfl⟩ := compiled_of_ofTokens compiled
    have shallow := forall_of_compileBodies (fun header => shallow_functionBody header) bodies
    intro f hf i hi expr
    have nests := shallow f hf i hi expr
    exact ⟨nests, nests.fits_of_unchained, nests.fits⟩
  · obtain same | cut := (Level.cut_ofRoom le).expression.cuts ctx s
    · have answer := same.trans answered
      have made := (Level.reaches_ofRoom limit).expression.answers rfl rfl answer
      rw [Level.room_ofRoom] at made
      exact .inl ⟨answer, made.tree⟩
    · exact .inr cut

/-!
`~` in front of a number nests one level each, and so does each operator of the chain behind them. Within the limit
there is room for either, and the tree is as high as both together.
-/
namespace Deep

def characters : List (TokenKind × String) :=
  List.replicate 250 (.operator .complement, "~") ++ [(.integer, "1")] ++
    (List.replicate 6 [(.operator .add, "+"), (.integer, "1")]).flatten ++
      [(.operator .semicolon, ";"), (.operator .rightBrace, "\x7d")]

def tokens : List Token :=
  [⟨.keyword .intWord, "int", ⟨0, 3⟩⟩, ⟨.identifier, "main", ⟨4, 8⟩⟩, ⟨.operator .leftParen, "(", ⟨8, 9⟩⟩,
   ⟨.operator .rightParen, ")", ⟨9, 10⟩⟩, ⟨.operator .leftBrace, "\x7b", ⟨11, 12⟩⟩,
   ⟨.keyword .returnWord, "return", ⟨13, 19⟩⟩] ++
    characters.zipIdx.map fun ((kind, text), i) => ⟨kind, text, ⟨.ofNat (20 + i), .ofNat (21 + i)⟩⟩

def returnsHigher (levels : Nat) : Except CompileError Program → Bool
  | .ok p => p.functions.any fun f => f.body.children.any fun statement => statement.children.any fun i =>
      i.form.isExpression && !decide (i.Fits levels)
  | .error _ => false

theorem higher_of_returnsHigher {levels : Nat} {result : Except CompileError Program}
    (h : returnsHigher levels result = true) : ∃ p, result = .ok p ∧
      ∃ f ∈ p.functions, ∃ i ∈ f.body.all, i.form.isExpression = true ∧ ¬ i.Fits levels := by
  cases result with
  | error e => cases h
  | ok p =>
    simp only [returnsHigher, List.any_eq_true, Bool.and_eq_true, Bool.not_eq_true', decide_eq_false_iff_not] at h
    obtain ⟨f, hf, statement, hs, i, hi, expr, high⟩ := h
    refine ⟨p, rfl, f, hf, i, ?_, expr, high⟩
    rw [Instr.all_eq]
    refine List.mem_cons_of_mem _ (List.mem_flatMap.2 ⟨statement, hs, ?_⟩)
    rw [Instr.all_eq]
    exact List.mem_cons_of_mem _ (List.mem_flatMap.2 ⟨i, hi, by rw [Instr.all_eq]; exact List.mem_cons_self⟩)

theorem returns_higher : returnsHigher maxNesting (ofTokens "deep" .empty tokens) = true := by decide +kernel

theorem answer_of_isSome {α : Type} {r : Option α × State} (h : r.1.isSome = true) : ∃ a s, r = (some a, s) := by
  obtain ⟨_ | a, s⟩ := r
  · cases h
  · exact ⟨a, s, rfl⟩

def short : State := ⟨tokens.drop 255 |>.take 4, .start .empty, 0⟩

theorem heights_limited_deep :
    (∃ p, ofTokens "deep" .empty tokens = .ok p ∧ ∀ f ∈ p.functions, ∀ i ∈ f.body.all, i.form.isExpression = true →
      i.Nests maxNesting ∧ (i.Unchained → i.Fits maxNesting) ∧ i.Fits (reach maxNesting)) ∧
    ∃ span, ((Level.ofRoom 5).expression (unitContext .empty tokens) short).1 = none ∧
      ((Level.ofRoom 5).expression (unitContext .empty tokens) short).2.scopes =
        short.scopes.recordError .tooDeep span := by
  obtain ⟨p, compiled, _⟩ := higher_of_returnsHigher returns_higher
  obtain ⟨limited, rejects⟩ := heights_limited compiled
  refine ⟨⟨p, compiled, limited⟩, ?_⟩
  have accepted : ((Level.ofRoom 6).expression (unitContext .empty tokens) short).1.isSome = true := by decide +kernel
  have rejected : ((Level.ofRoom 5).expression (unitContext .empty tokens) short).1.isNone = true := by decide +kernel
  obtain ⟨e, s', answered⟩ := answer_of_isSome accepted
  refine (rejects (Nat.le_succ 5) answered).resolve_left fun ⟨answer, _⟩ => ?_
  rw [answer] at rejected
  cases rejected

theorem nested_higher_than_limit : ¬ ∀ {id env tokens p}, ofTokens id env tokens = .ok p →
    ∀ f ∈ p.functions, ∀ i ∈ f.body.all, i.form.isExpression = true → i.Fits maxNesting := by
  intro limited
  obtain ⟨p, compiled, f, hf, i, hi, expr, high⟩ := higher_of_returnsHigher returns_higher
  exact high (limited compiled f hf i hi expr)

end Deep
end Program
end Tickwise
