import Tickwise.Proofs.Compile.Comparison
import Tickwise.Proofs.Compile.Expansions
set_option autoImplicit false

/-!
# Compound assignments

`x op= e` is accepted where `x = x op (e)` is, but for the limit on nesting, and both do the same.
-/
namespace Tickwise

open Compile Compiler Exec

theorem Operator.binary_of_compoundBase? {op bop : Operator} (compound : op.compoundBase? = some bop) :
    isAssignment op = true ∧ ∃ b base, binding? bop = some b ∧ b.connective = .binary base ∧ base.isComparison = false ∧
      compoundOp? op = some base := by
  cases op <;> cases compound <;> exact ⟨rfl, _, _, rfl, rfl, rfl, rfl⟩

namespace Compile

def openBehind? : List Token → (depth : Nat) → Option Nat
  | [], depth => some depth
  | t :: ts, depth => (t.openBehind? depth).bind (openBehind? ts)

/-- The tokens of an assignment by an operator to a name and those of its expansion, with the same tokens for the
expression. Were the brackets of these not balanced, those around them would not enclose them. -/
inductive Expands (x : String) : List Token → List Token → Prop
  | mk {op base : Operator} (compound : op.compoundBase? = some base) {e e' : List Token}
    (same : e.Forall₂ Token.Same e') (balanced : openBehind? e 0 = some 0)
    (text₁ text₂ text₃ text₄ text₅ : String) (span₁ span₂ span₃ span₄ span₅ span₆ span₇ span₈ : Span) :
    Expands x (⟨.identifier, x, span₁⟩ :: ⟨.operator op, text₁, span₂⟩ :: e)
      (⟨.identifier, x, span₃⟩ :: ⟨.operator .assign, text₂, span₄⟩ :: ⟨.identifier, x, span₅⟩ ::
        ⟨.operator base, text₃, span₆⟩ :: ⟨.operator .leftParen, text₄, span₇⟩ ::
        (e' ++ [⟨.operator .rightParen, text₅, span₈⟩]))

/-- A place in a unit where an expression is compiled, in front of what ends it. -/
structure Site where
  ctx : Context
  scopes : ScopeStack
  node : NodeId
  behind : List Token
  ends : ∀ t ∈ behind.head?, t.Ends

namespace Site

def compile (g : Site) (room : Nat) (ts : List Token) : Option Operand × State :=
  (Level.ofRoom room).expression g.ctx ⟨ts ++ g.behind, g.scopes, g.node⟩

/-- The tokens are an expression, up to what ends it. -/
def Accepts (g : Site) (room : Nat) (ts : List Token) (o : Operand) : Prop :=
  ∃ s, g.compile room ts = (some o, s) ∧ s.rest = g.behind

/-- The expression is rejected since nesting is too deep. -/
def TooDeep (g : Site) (room : Nat) (ts : List Token) : Prop :=
  ∃ span, (g.compile room ts).1 = none ∧ (g.compile room ts).2.scopes = g.scopes.recordError .tooDeep span

/-- The turns of a loop are more than the tokens. -/
def Counts (g : Site) (ts : List Token) : Prop := (ts ++ g.behind).length < g.ctx.turns

/-- The same is in sight. -/
structure Like (g g' : Site) : Prop where
  contexts : g.ctx.Sees g'.ctx
  scopes : g.scopes.Sees g'.scopes

variable {g g' : Site} {limit room : Nat} {ts : List Token} {o o' : Operand}

theorem Accepts.deeper (h : g.Accepts limit ts o) (le : limit ≤ room) : g.Accepts room ts o := by
  obtain ⟨s, compiled, rest⟩ := h
  refine ⟨s, ?_, rest⟩
  obtain same | ⟨span, failed, -⟩ := (Level.cut_ofRoom le).expression.cuts g.ctx ⟨ts ++ g.behind, g.scopes, g.node⟩
  · exact same.symm.trans compiled
  · cases failed.symm.trans (congrArg Prod.fst compiled)

theorem Accepts.shallower (h : g.Accepts room ts o) (le : limit ≤ room) (fits : ¬ g.TooDeep limit ts) :
    g.Accepts limit ts o := by
  obtain ⟨s, compiled, rest⟩ := h
  obtain same | tooDeep := (Level.cut_ofRoom le).expression.cuts g.ctx ⟨ts ++ g.behind, g.scopes, g.node⟩
  · exact ⟨s, same.trans compiled, rest⟩
  · exact absurd tooDeep fits

theorem Accepts.unique (h : g.Accepts limit ts o) (h' : g.Accepts room ts o') : o = o' := by
  obtain ⟨s, compiled, -⟩ := h.deeper (Nat.le_max_left limit room)
  obtain ⟨s', compiled', -⟩ := h'.deeper (Nat.le_max_right limit room)
  cases compiled.symm.trans compiled'
  rfl

end Site

namespace Enclosed

variable {K : Tails} {depth : Nat} {ts us e e' : List Token}

theorem of_balanced (same : e.Forall₂ Token.Same e') (balanced : openBehind? e depth = some 0) :
    Enclosed K depth (e ++ K.left) (e' ++ K.right) := by
  induction same generalizing depth with
  | nil =>
    cases balanced
    exact .done
  | cons first _ ih =>
    obtain ⟨behind, opens, more⟩ := Option.bind_eq_some_iff.1 balanced
    exact .step first opens (ih more)

theorem length_le (h : Enclosed K depth ts us) : K.left.length ≤ ts.length := by
  induction h with
  | done => exact Nat.le_refl _
  | step _ _ _ ih => exact Nat.le_succ_of_le ih

theorem eq_right (h : Enclosed K depth ts us) (ended : ts = K.left) : us = K.right := by
  cases h with
  | done => rfl
  | step _ _ more =>
    have le := more.length_le
    rw [← ended] at le
    exact absurd le (Nat.not_succ_le_self _)

theorem done_of_closes (h : Enclosed K 0 ts us) (closes : us.head?.any (·.isOp .rightParen) = true) :
    ts = K.left ∧ us = K.right := by
  cases h with
  | done => exact ⟨rfl, rfl⟩
  | step same opens =>
    cases (Tandem.openBehind?_of_isOp ((same.isOp .rightParen).trans closes)).symm.trans opens

end Enclosed

namespace Site

variable {g g' : Site} {n : Nat} {x : String} {v : Variable} {op bop : Operator} {base : BinaryOp} {b : Binding}
  {text₁ text₂ text₃ text₄ text₅ : String} {span₁ span₂ span₃ span₄ span₅ span₆ span₇ span₈ : Span}
  {e e' : List Token} {o : Operand}

def operand (g : Site) (room : Nat) (e : List Token) : Option Operand × State :=
  (Level.ofRoom room).expression g.ctx ⟨e ++ g.behind, g.scopes.push false, g.node + 1⟩

def enclosed (g : Site) (room : Nat) (e : List Token) (close : Token) : Option Operand × State :=
  (Level.ofRoom room).expression g.ctx ⟨e ++ close :: g.behind, g.scopes.within 7, g.node + 2⟩

theorem accepts_compound (found : g.scopes.find? x = some v) (turns : 0 < g.ctx.turns)
    (assigns : isAssignment op = true) (compound : compoundOp? op = some base) :
    g.Accepts (n + 5) (⟨.identifier, x, span₁⟩ :: ⟨.operator op, text₁, span₂⟩ :: e) o ↔
      ∃ a s, g.operand (n + 4) e = (some a, s) ∧ s.rest = g.behind ∧ Suited base v.ty a.ty ∧
        o = ⟨⟨s.nextNode, span₂, .store ⟨v.id, x, [], v.ty⟩ (some base) v.ty a.instr⟩, v.ty, none⟩ := by
  constructor
  · rintro ⟨s, compiled, rest⟩
    obtain ⟨a, s₁, s₂, read, assigned, rfl⟩ := (expression_assigning found turns assigns).1 compiled
    obtain ⟨suited, made, rfl⟩ := (assignment_compound compound).1 assigned
    exact ⟨a, s₁, read, rest, suited, made⟩
  · rintro ⟨a, s, read, rest, suited, made⟩
    exact ⟨_, (expression_assigning found turns assigns).2
      ⟨a, s, _, read, (assignment_compound compound).2 ⟨suited, made, rfl⟩, rfl⟩, rest⟩

theorem accepts_expansion (text₁ text₂ text₃ : String) (span₁ span₂ span₃ span₄ span₅ : Span)
    (found : g.scopes.find? x = some v) (turns : 1 < g.ctx.turns) (bound : binding? bop = some b)
    (does : b.connective = .binary base) (arithmetic : base.isComparison = false) {close : Token}
    (closes : close.isOp .rightParen = true) {a : Operand} {s : State} (read : g.enclosed (n + 4) e close = (some a, s))
    (rest : s.rest = close :: g.behind) (suited : Suited base v.ty a.ty) : ∃ id sum cs right,
      sum.form = .binary base v.ty (Operand.ofName (g.node + 1) span₃ x v).instr right ∧
        a.instr.Operates v.ty cs right ∧
      g.Accepts (n + 11) (⟨.identifier, x, span₁⟩ :: ⟨.operator .assign, text₁, span₂⟩ ::
          ⟨.identifier, x, span₃⟩ :: ⟨.operator bop, text₂, span₄⟩ :: ⟨.operator .leftParen, text₃, span₅⟩ ::
          (e ++ [close]))
        ⟨⟨id, span₂, .store ⟨v.id, x, [], v.ty⟩ none v.ty sum⟩, v.ty, none⟩ := by
  have found' : (g.scopes.push false).find? x = some v := found
  obtain ⟨s₁, rest₁, operand⟩ := binary_parenthesized ((g.scopes.push false).within 3) text₃ span₅
    (Nat.lt_of_succ_lt turns) b.rightFloor read rest closes g.ends
  obtain ⟨sum, s₂, combined, rest₂, typed, cs, right, form, operates⟩ := combine_suited x g.ctx s₁ (g.node + 1) span₄ span₃
    arithmetic suited
  obtain ⟨s₃, rest₃, value⟩ := expression_sum bound does found' text₂ turns operand combined
    (rest₂ ▸ rest₁ ▸ g.ends)
  have assigned := @assignment_same sum ⟨v.id, x, [], v.ty⟩ g.ctx s₃ span₂ typed suited.left
  refine ⟨s₃.nextNode, sum.instr, cs, right, form, operates,
    State.closed { s₃ with nextNode := s₃.nextNode + 1 }, ?_, (rest₃.trans rest₂).trans rest₁⟩
  unfold compile
  simp only [List.cons_append, List.append_assoc, List.nil_append]
  exact (expression_assigning found (Nat.lt_of_succ_lt turns) rfl).2 ⟨sum, s₃, _, value, assigned, rfl⟩

theorem suited_of_accepts (found : g.scopes.find? x = some v) (turns : 1 < g.ctx.turns) (bound : binding? bop = some b)
    (does : b.connective = .binary base) (arithmetic : base.isComparison = false) {close : Token}
    (closes : close.isOp .rightParen = true)
    (accepted : g.Accepts (n + 11) (⟨.identifier, x, span₁⟩ :: ⟨.operator .assign, text₁, span₂⟩ ::
      ⟨.identifier, x, span₃⟩ :: ⟨.operator bop, text₂, span₄⟩ :: ⟨.operator .leftParen, text₃, span₅⟩ ::
      (e ++ [close])) o) : ∃ a s, g.enclosed (n + 4) e close = (some a, s) ∧
        s.rest.head?.any (·.isOp .rightParen) = true ∧ (s.rest = close :: g.behind → Suited base v.ty a.ty) := by
  have found' : (g.scopes.push false).find? x = some v := found
  have some_turns := Nat.lt_of_succ_lt turns
  obtain ⟨s, compiled, -⟩ := accepted
  unfold compile at compiled
  simp only [List.cons_append, List.append_assoc, List.nil_append] at compiled
  obtain ⟨value, s₁, s₂, read, assigned, rfl⟩ := (expression_assigning found some_turns rfl).1 compiled
  obtain ⟨right, s₃, sum, s₄, operand, combined⟩ := sum_of_expression bound does found' some_turns read
  obtain ⟨a, s₅, inside, shut⟩ := expression_of_parenthesized operand
  refine ⟨a, s₅, inside, shut, fun rest => ?_⟩
  obtain ⟨s₆, rest₆, whole⟩ := binary_parenthesized ((g.scopes.push false).within 3) text₃ span₅
    some_turns b.rightFloor inside rest closes g.ends
  cases whole.symm.trans operand
  obtain ⟨⟨left, operandTy⟩, rest₄, ty, computes, typed⟩ := computes_of_combine combined
  obtain ⟨s₇, -, value'⟩ := expression_sum bound does found' text₂ turns operand combined
    (rest₄ ▸ rest₆ ▸ g.ends)
  cases value'.symm.trans read
  rw [arithmetic, if_neg Bool.false_ne_true] at typed
  have accepts := typed ▸ accepts_of_assignment assigned
  obtain rfl := operandType?_of_accepts arithmetic computes accepts
  exact ⟨left, operandTy, computes⟩

section Alike

variable (close : Token) (like : g.Like g') (same : e.Forall₂ Token.Same e') (balanced : openBehind? e 0 = some 0)
  (counts : (e ++ g.behind).length < g.ctx.turns) (counts' : (e' ++ close :: g'.behind).length < g'.ctx.turns)
  (closes : close.isOp .rightParen = true)

include like same balanced counts counts' closes

theorem operand_enclosed (room : Nat) : ∃ K : Tails, K.left = g.behind ∧ K.right = close :: g'.behind ∧
    EndTandem (Inside (Enclosed K 0) Operand.Twin) ⟨e ++ g.behind, g.scopes.push false, g.node + 1⟩
      ⟨e' ++ close :: g'.behind, g'.scopes.within 7, g'.node + 2⟩ (g.operand room e) (g'.enclosed room e' close) := by
  have ends : ∀ t ∈ (close :: g'.behind).head?, t.Ends := by
    intro t front
    cases front
    exact ⟨.rightParen, of_decide_eq_true closes, rfl⟩
  let K : Tails := ⟨g.behind, close :: g'.behind, g.ends, ends⟩
  have sees : (g.scopes.push false).Sees (g'.scopes.within 7) := ⟨like.scopes.find?, like.scopes.candidates⟩
  exact ⟨K, rfl, rfl, ((Level.encloses_ofRoom K room).expression (.of_balanced same balanced)).ends
    ⟨like.contexts, sees, rfl, rfl, counts, counts'⟩⟩

theorem enclosed_of_operand {room : Nat} {a : Operand} {s : State} (read : g.operand room e = (some a, s))
    (rest : s.rest = g.behind) :
    ∃ a' s', g'.enclosed room e' close = (some a', s') ∧ s'.rest = close :: g'.behind ∧ a.Twin a' := by
  obtain ⟨K, left, right, ends⟩ := operand_enclosed close like same balanced counts counts' closes room
  rw [read] at ends
  generalize g'.enclosed room e' close = r at ends ⊢
  cases ends with
  | some _ _ answers => exact ⟨_, _, rfl, (answers.1.eq_right (rest.trans left.symm)).trans right, answers.2⟩

theorem operand_of_enclosed {room : Nat} {a' : Operand} {s' : State} (read : g'.enclosed room e' close = (some a', s'))
    (shut : s'.rest.head?.any (·.isOp .rightParen) = true) :
    ∃ a s, g.operand room e = (some a, s) ∧ s.rest = g.behind ∧ s'.rest = close :: g'.behind ∧ a.Twin a' := by
  obtain ⟨K, left, right, ends⟩ := operand_enclosed close like same balanced counts counts' closes room
  rw [read] at ends
  generalize g.operand room e = r at ends ⊢
  cases ends with
  | some _ _ answers =>
    obtain ⟨rest, rest'⟩ := answers.1.done_of_closes shut
    exact ⟨_, _, rfl, rest.trans left, rest'.trans right, answers.2⟩

end Alike

end Site

namespace Expands

variable {g g' : Site} {x : String} {v : Variable} {ts us : List Token} {room : Nat} {o o' : Operand}

theorem turns (h : Expands x ts us) (counts : g.Counts us) : 1 < g.ctx.turns := by
  cases h
  exact Nat.lt_of_le_of_lt (Nat.succ_le_succ (Nat.zero_le _)) (Nat.lt_of_succ_lt counts)

theorem expansion (expands : Expands x ts us) (like : g.Like g') (found : g.scopes.find? x = some v)
    (counts : g.Counts ts)
    (counts' : g'.Counts us) (accepted : g.Accepts room ts o) : ∃ o', g'.Accepts (room + 11) us o' ∧ o'.ty = o.ty ∧
      Nonempty (Expansion ⟨v.id, x, [], v.ty⟩ o.instr o'.instr) := by
  have found' : g'.scopes.find? x = some v := (like.scopes.find? x).symm.trans found
  have turns' := expands.turns counts'
  cases expands with | @mk op bop compound e e' same balanced _ t₂ t₃ t₄ t₅ _ _ s₃ s₄ s₅ s₆ s₇ s₈ =>
  obtain ⟨assigns, b, base, bound, does, arithmetic, operator⟩ := Operator.binary_of_compoundBase? compound
  unfold Site.Counts at counts counts'
  simp only [List.cons_append, List.append_assoc, List.nil_append, List.length_cons] at counts counts'
  obtain ⟨a, s, read, rest, suited, rfl⟩ := (Site.accepts_compound (n := room) found (Nat.zero_lt_of_lt counts) assigns
    operator).1 (accepted.deeper (Nat.le_add_right room 5))
  obtain ⟨a', s', read', rest', twin⟩ := Site.enclosed_of_operand ⟨.operator .rightParen, t₅, s₈⟩ like same
    balanced (by omega) (by rw [List.length_append, List.length_cons] at counts' ⊢; omega) rfl read rest
  obtain ⟨ty, constant, alike⟩ := twin
  obtain ⟨id, sum, cs, right, form, operates, accepts⟩ := Site.accepts_expansion t₂ t₃ t₄ s₃ s₄ s₅ s₆ s₇
    found' turns' bound does arithmetic rfl read' rest' suited
  refine ⟨_, accepts, rfl, ⟨?_⟩⟩
  exact ⟨base, _, sum, _, right, _, cs, rfl, rfl, rfl, form, rfl, alike, operates⟩

theorem compound (expands : Expands x ts us) (like : g.Like g') (found : g.scopes.find? x = some v)
    (counts : g.Counts ts)
    (counts' : g'.Counts us) (accepted : g'.Accepts room us o') : ∃ o, g.Accepts (room + 5) ts o := by
  have found' : g'.scopes.find? x = some v := (like.scopes.find? x).symm.trans found
  have turns' := expands.turns counts'
  cases expands with | @mk op bop compound e e' same balanced _ t₂ t₃ t₄ t₅ _ _ s₃ s₄ s₅ s₆ s₇ s₈ =>
  obtain ⟨assigns, b, base, bound, does, arithmetic, operator⟩ := Operator.binary_of_compoundBase? compound
  unfold Site.Counts at counts counts'
  simp only [List.cons_append, List.append_assoc, List.nil_append, List.length_cons] at counts counts'
  obtain ⟨a', s', read', shut, suits⟩ := Site.suited_of_accepts (n := room) found' turns' bound does arithmetic rfl
    (accepted.deeper (Nat.le_add_right room 11))
  obtain ⟨a, s, read, rest, rest', twin⟩ := Site.operand_of_enclosed
    ⟨.operator .rightParen, t₅, s₈⟩ like same balanced (by omega) (by rw [List.length_append, List.length_cons] at counts' ⊢; omega) rfl read' shut
  obtain ⟨ty, constant, alike⟩ := twin
  exact ⟨_, (Site.accepts_compound found (Nat.zero_lt_of_lt counts) assigns operator).2
    ⟨_, _, read, rest, suits rest', rfl⟩⟩

end Expands
end Compile

theorem Program.braced_ofTokens {id : String} {env : Environment} {tokens : List Token} {p : Program}
    (compiled : ofTokens id env tokens = .ok p) : p.Braced := by
  obtain ⟨_, fs, s, bodies, rfl⟩ := compiled_of_ofTokens compiled
  have node {bs : List Breakable} (span : Span) (statements : List Instr) :
      Emits env bs (Compiler.node span (.block statements)) fun i => ∃ statements, i.form = .block statements :=
    ⟨fun _ _ made => by
      cases made
      exact ⟨statements, rfl⟩⟩
  have block {bs : List Breakable} (lv : Level) :
      Emits env bs (Compiler.block lv false) fun i => ∃ statements, i.form = .block statements :=
    .next fun opening => .next fun statements => node opening.span statements
  exact forall_of_compileBodies (fun header => .next fun _ => .inFrame true (.next fun _ =>
    (block _).bind fun _ ⟨statements, form⟩ => .pure ⟨statements, form⟩)) bodies

theorem Slot.toFloat_of_fits {v : Variable} (fits : v.value.fits .float = true) (init : v.isInit = true) :
    ∃ x, v.toFloat = .ok x := by
  obtain ⟨name, id, ty, value, label⟩ := v
  cases value with
  | float x => exact ⟨x, rfl⟩
  | unassigned => cases init
  | _ => cases fits

/-- A compound assignment to a variable and its expansion are both accepted as expressions or both rejected, unless
nesting is too deep for one of them. Accepted they have the same type; and executed in the same machine, where the
variable has a value of its type, they end alike, tick after tick, if the expression does not assign to the variable and
the frames do not nest too deeply. -/
theorem Compile.compound_assignment_agrees {g g' : Site} (like : g.Like g') {x : String} {v : Variable}
    (found : g.scopes.find? x = some v) {ts us : List Token} (expands : Expands x ts us) (counts : g.Counts ts)
    (counts' : g'.Counts us) :
    (∀ room, ¬ g.TooDeep room ts → ¬ g'.TooDeep room us → ((∃ o, g.Accepts room ts o) ↔ ∃ o, g'.Accepts room us o)) ∧
    ∀ {room room' o o'}, g.Accepts room ts o → g'.Accepts room' us o' → o'.ty = o.ty ∧
      ((∀ c ∈ o.instr.children, c.Spares v.id) → ∀ {id env tokens p}, Program.ofTokens id env tokens = .ok p →
        ∀ {m w}, m.deeper = [] → m.findVar? v.id = some w → w.isInit = true → w.value.fits v.ty = true →
          ∀ {n hosts}, ¬ TicksOverflow p n o'.instr hosts m →
            EndAlike (ticks p n o.instr hosts m) (ticks p n o'.instr hosts m)) := by
  refine ⟨fun room fits fits' => ⟨fun ⟨o, accepted⟩ => ?_, fun ⟨o', accepted⟩ => ?_⟩,
    fun {room room' o o'} left right => ?_⟩
  · obtain ⟨o', accepted', -⟩ := expands.expansion like found counts counts' accepted
    exact ⟨o', accepted'.shallower (Nat.le_add_right room 11) fits'⟩
  · obtain ⟨o, accepted'⟩ := expands.compound like found counts counts' accepted
    exact ⟨o, accepted'.shallower (Nat.le_add_right room 5) fits⟩
  · obtain ⟨o'', right', same, ⟨E⟩⟩ := expands.expansion like found counts counts' left
    obtain rfl := right'.unique right
    refine ⟨same, fun spares {id env tokens p} compiled {m w} bare inSight init fits {n hosts} stays => ?_⟩
    have operand : E.value ∈ o.instr.children := by
      unfold Instr.children
      rw [E.compound]
      exact List.mem_append_right _ (List.mem_singleton_self _)
    have holds (float : v.ty = .float) : ∃ y, w.toFloat = .ok y := Slot.toFloat_of_fits (float ▸ fits) init
    exact E.endAlike (Program.braced_ofTokens compiled) (spares _ operand) bare inSight init holds stays

/-!
`x += 1` and `x = x + (1)` in front of a semicolon, where `x` is a float: the expansion converts the operand.
-/
namespace Increment

def token (kind : TokenKind) (text : String) (at_ : Nat) : Token :=
  ⟨kind, text, ⟨.ofNat at_, .ofNat (at_ + text.length)⟩⟩

def short : List Token := [token .identifier "x" 0, token (.operator .addAssign) "+=" 2, token .integer "1" 5]

def long : List Token :=
  [token .identifier "x" 0, token (.operator .assign) "=" 2, token .identifier "x" 4, token (.operator .add) "+" 6,
    token (.operator .leftParen) "(" 8, token .integer "1" 9, token (.operator .rightParen) ")" 10]

def site : Compile.Site where
  ctx := ⟨.empty, [], [], ⟨12, 12⟩, 10, .void, []⟩
  scopes := ((ScopeStack.start .empty).push true |>.declare ⟨0, 0⟩ ⟨some "x", 7, .float, .unassigned, none⟩).2
  node := 0
  behind := [token (.operator .semicolon) ";" 11]
  ends := by
    intro t front
    cases front
    exact ⟨.semicolon, rfl, rfl⟩

def place : Place Instr := ⟨7, "x", [], .float⟩

def one : Variable := ⟨none, 0, .int, .int 1, none⟩

def increment : Instr := ⟨2, ⟨2, 4⟩, .store place (some .add) .float ⟨1, ⟨5, 6⟩, .literal one⟩⟩

def converted : Instr := ⟨3, ⟨9, 10⟩, .convert .float ⟨2, ⟨9, 10⟩, .literal one⟩⟩

def sum : Instr := ⟨4, ⟨6, 7⟩, .binary .add .float ⟨1, ⟨4, 5⟩, .load place⟩ converted⟩

def expansion : Instr := ⟨5, ⟨2, 3⟩, .store place none .float sum⟩

def x : Variable := ⟨some "x", 7, .float, .float .one, none⟩

def machine : Machine := ⟨[{ Frame.start 8 with scope := true, locals := [x] }], [], .empty, .empty, 100, 0, false⟩

theorem accepts_of_any {room : Nat} {ts : List Token} {i : Instr}
    (made : ((site.compile room ts).1.map Operand.instr).any (Instr.same 9 · i) = true)
    (rest : (site.compile room ts).2.rest = site.behind) : ∃ o, site.Accepts room ts o ∧ o.instr = i := by
  have answer := Instr.eq_some_of_same 9 made
  obtain ⟨o, compiled, same⟩ := Option.map_eq_some_iff.1 answer
  exact ⟨o, ⟨_, Prod.ext compiled rfl, rest⟩, same⟩

theorem increments : (∃ o, site.Accepts 6 short o ∧ o.instr = increment) ∧
    ∃ o, site.Accepts 12 long o ∧ o.instr = expansion :=
  ⟨accepts_of_any (by decide +kernel) (by decide +kernel), accepts_of_any (by decide +kernel) (by decide +kernel)⟩

theorem all_expansion :
    expansion.all = [expansion, sum, ⟨1, ⟨4, 5⟩, .load place⟩, converted, ⟨2, ⟨9, 10⟩, .literal one⟩] := by
  simp [Instr.all_eq, expansion, sum, converted, Instr.children, Instr.form, Form.children, place, Place.indices]

theorem compound_assignment_agrees_increment : ∃ o o' p, site.Accepts 6 short o ∧ site.Accepts 12 long o' ∧
    Program.ofTokens "unit" .empty [] = .ok p ∧ (∃ o', site.Accepts 12 long o') ∧
    EndAlike (ticks p 4 o.instr [machine] machine) (ticks p 4 o'.instr [machine] machine) := by
  obtain ⟨⟨o, left, same⟩, o', right, same'⟩ := increments
  have like : site.Like site := ⟨⟨rfl, rfl⟩, ⟨fun _ => rfl, fun _ => rfl⟩⟩
  have alike : (token .integer "1" 5).Same (token .integer "1" 9) := .mk _ _ trivial
  have operands : List.Forall₂ Token.Same [token .integer "1" 5] [token .integer "1" 9] := .cons alike .nil
  have expands : Expands "x" short long := .mk rfl operands rfl ..
  obtain ⟨p, compiled⟩ : ∃ p, Program.ofTokens "unit" .empty [] = .ok p := ⟨_, rfl⟩
  obtain ⟨accepts, agree⟩ := Compile.compound_assignment_agrees like (v := ⟨some "x", 7, .float, .unassigned, none⟩) rfl
    expands (Nat.le_of_ble_eq_true rfl) (Nat.le_of_ble_eq_true rfl)
  have deeper := left.deeper (show 6 ≤ 12 by decide)
  have fits {ts : List Token} {o : Operand} (accepted : site.Accepts 12 ts o) : ¬ site.TooDeep 12 ts := by
    rintro ⟨_, none, _⟩
    obtain ⟨_, compiled, _⟩ := accepted
    cases none.symm.trans (congrArg Prod.fst compiled)
  refine ⟨o, o', p, left, right, compiled, (accepts 12 (fits deeper) (fits right)).1 ⟨o, deeper⟩,
    (agree left right).2 ?_ compiled (w := x) rfl rfl rfl rfl ?_⟩
  · rw [same]
    intro c hc j hj ⟨place, _, _, assigns⟩
    obtain rfl := List.mem_singleton.1 hc
    rw [Instr.all_eq] at hj
    obtain rfl := List.mem_singleton.1 hj
    obtain ⟨_, _, _, form⟩ | ⟨_, _, form⟩ := assigns <;> cases form
  · rw [same']
    refine not_ticksOverflow_of_fits ?_ (by decide)
    rw [all_expansion]
    intro j hj callee args ret form
    simp only [List.mem_cons, List.not_mem_nil, or_false] at hj
    rcases hj with rfl | rfl | rfl | rfl | rfl <;> cases form

end Increment
end Tickwise
