import Tickwise.Proofs.Compile.Units
import Tickwise.Proofs.Typing.Units
set_option autoImplicit false

/-!
# Which functions a source defines

Outside of all braces an identifier in front of a parenthesis names a function. The outline of a unit has one
header for each of them.
-/
namespace Tickwise

open Compile Compiler

/-- The tokens that name the functions of a source, inside `depth` open braces. -/
def definedNames : (depth : Nat) → List Token → List Token
  | _, [] => []
  | depth, t :: rest =>
    if t.isOp .leftBrace then definedNames (depth + 1) rest
    else if t.isOp .rightBrace then definedNames (depth - 1) rest
    else if depth = 0 ∧ t.kind = .identifier ∧ rest.head?.any (·.isOp .leftParen) then t :: definedNames depth rest
    else definedNames depth rest

/-- Neither a brace nor a parenthesis. -/
structure Token.Plain (t : Token) : Prop where
  leftParen : t.isOp .leftParen = false
  rightParen : t.isOp .rightParen = false
  leftBrace : t.isOp .leftBrace = false
  rightBrace : t.isOp .rightBrace = false

/-- From the one position to the other there are only tokens of a kind. -/
inductive Passed (P : Token → Prop) : List Token → List Token → Prop where
  | refl (tokens : List Token) : Passed P tokens tokens
  | step {t : Token} {tokens rest : List Token} (ht : P t) (more : Passed P tokens rest) : Passed P (t :: tokens) rest

/-- No parenthesis is closed from the one position to the other. -/
abbrev Unclosed : List Token → List Token → Prop := Passed (·.isOp .rightParen = false)

theorem Token.isOp_of_ne {t : Token} {op op' : Operator} (h : t.isOp op = true) (ne : op ≠ op') :
    t.isOp op' = false := by
  have kind : t.kind = .operator op := of_decide_eq_true h
  simp [Token.isOp, kind, ne]

theorem Token.Plain.of_isOp {t : Token} {op : Operator} (h : t.isOp op = true) (hp : op ≠ .leftParen)
    (hq : op ≠ .rightParen) (hl : op ≠ .leftBrace) (hr : op ≠ .rightBrace) : t.Plain :=
  ⟨Token.isOp_of_ne h hp, Token.isOp_of_ne h hq, Token.isOp_of_ne h hl, Token.isOp_of_ne h hr⟩

theorem Token.Plain.of_kind {t : Token} (h : ∀ op, t.kind ≠ .operator op) : t.Plain := by
  constructor <;> simp [Token.isOp, h]

namespace Passed

variable {P : Token → Prop} {tokens mid rest : List Token}

theorem trans (first : Passed P tokens mid) (second : Passed P mid rest) : Passed P tokens rest := by
  induction first with
  | refl => exact second
  | step ht _ ih => exact .step ht (ih second)

theorem one {t : Token} (ht : P t) : Passed P (t :: rest) rest := .step ht (.refl rest)

theorem append (h : Passed P tokens rest) : ∃ front, tokens = front ++ rest ∧ ∀ t ∈ front, P t := by
  induction h with
  | refl => exact ⟨[], rfl, nofun⟩
  | @step t _ _ ht _ ih =>
    obtain ⟨front, rfl, all⟩ := ih
    exact ⟨t :: front, rfl, List.forall_mem_cons.2 ⟨ht, all⟩⟩

theorem unclosed (h : Passed Token.Plain tokens rest) : Unclosed tokens rest := by
  induction h with
  | refl => exact .refl _
  | step plain _ ih => exact .step plain.rightParen ih

theorem head (h : Passed Token.Plain tokens rest) (hr : rest.head?.any (·.isOp .leftParen) = false) :
    tokens.head?.any (·.isOp .leftParen) = false := by
  cases h with
  | refl => exact hr
  | step plain => simpa using plain.leftParen

theorem definedNames (h : Passed Token.Plain tokens rest) {depth : Nat}
    (hr : depth = 0 → rest.head?.any (·.isOp .leftParen) = false) :
    definedNames depth tokens = definedNames depth rest := by
  induction h with
  | refl => rfl
  | step plain more ih =>
    rw [← ih hr, Tickwise.definedNames, plain.leftBrace, plain.rightBrace, if_neg Bool.false_ne_true,
      if_neg Bool.false_ne_true]
    refine if_neg fun ⟨outside, _, paren⟩ => ?_
    rw [more.head (hr outside)] at paren
    cases paren

end Passed

theorem definedNames_leftBrace {t : Token} {rest : List Token} {depth : Nat} (h : t.isOp .leftBrace = true) :
    definedNames depth (t :: rest) = definedNames (depth + 1) rest := by
  rw [definedNames, if_pos h]

theorem definedNames_rightBrace {t : Token} {rest : List Token} {depth : Nat} (h : t.isOp .rightBrace = true) :
    definedNames (depth + 1) (t :: rest) = definedNames depth rest := by
  have kind : t.kind = .operator .rightBrace := of_decide_eq_true h
  simp [definedNames, Token.isOp, kind]

theorem definedNames_other {t : Token} {rest : List Token} {depth : Nat} (hl : t.isOp .leftBrace = false)
    (hr : t.isOp .rightBrace = false) (hi : t.kind ≠ .identifier) :
    definedNames depth (t :: rest) = definedNames depth rest := by
  simp [definedNames, hl, hr, hi]

theorem definedNames_name {t : Token} {rest : List Token} (hi : t.kind = .identifier)
    (hp : rest.head?.any (·.isOp .leftParen) = true) : definedNames 0 (t :: rest) = t :: definedNames 0 rest := by
  have plain : t.Plain := .of_kind fun op => by rw [hi]; nofun
  simp [definedNames, plain.leftBrace, plain.rightBrace, hi, hp]

theorem definedNames_skipBlock? {depth : Nat} {tokens rest : List Token}
    (h : skipBlock? (depth + 1) tokens = some rest) : definedNames (depth + 1) tokens = definedNames 0 rest := by
  induction tokens generalizing depth with
  | nil => cases h
  | cons t tokens ih =>
    unfold skipBlock? at h
    split at h
    case isTrue left => rw [definedNames, if_pos left, ih h]
    case isFalse left =>
      split at h
      case isTrue right =>
        rw [definedNames_rightBrace right]
        cases depth with
        | zero => cases h; rfl
        | succ depth => exact ih h
      case isFalse right =>
        rw [definedNames, if_neg left, if_neg right, if_neg fun inside => Nat.succ_ne_zero depth inside.1, ih h]

/-- A routine that began in front of `tokens` and succeeds leaves this. -/
structure Takes {α : Type} (tokens : List Token) (c : Compiler α) (P : List Token → α → Prop) : Prop where
  leaves : ∀ {ctx s a s'}, s.rest = tokens → c ctx s = (some a, s') → P s'.rest a

namespace Takes

variable {α β σ : Type} {tokens : List Token} {c : Compiler α} {P : List Token → α → Prop} {P' : List Token → β → Prop}

theorem pure {a : α} (h : P tokens a) : Takes tokens (pure a) P := ⟨fun hs hc => by cases hc; exact hs ▸ h⟩

theorem fail (cause : CompileError.Cause) (span : Span) : Takes tokens (Compiler.fail cause span) P :=
  ⟨fun _ hc => by cases hc⟩

theorem bind {f : α → Compiler β} (first : Takes tokens c P) (second : ∀ rest a, P rest a → Takes rest (f a) P') :
    Takes tokens (c >>= f) P' := by
  refine ⟨fun hs hc => ?_⟩
  obtain ⟨a, s₁, hc, hf⟩ := some_of_bind hc
  exact (second _ a (first.leaves hs hc)).leaves rfl hf

theorem ite {q : Prop} [Decidable q] {d : Compiler α} (hc : q → Takes tokens c P) (hd : ¬ q → Takes tokens d P) :
    Takes tokens (if q then c else d) P := by
  split
  case isTrue h => exact hc h
  case isFalse h => exact hd h

theorem look {g : Context → State → α} {R : α → Prop} (h : ∀ ctx s, c ctx s = (some (g ctx s), s))
    (hr : ∀ ctx s, s.rest = tokens → R (g ctx s)) : Takes tokens c fun rest a => rest = tokens ∧ R a := by
  refine ⟨fun {ctx s _ _} hs hc => ?_⟩
  rw [h] at hc
  cases hc
  exact ⟨hs, hr ctx s hs⟩

theorem see {f : α → Compiler β} {R : α → Prop} (first : Takes tokens c fun rest a => rest = tokens ∧ R a)
    (second : ∀ a, R a → Takes tokens (f a) P') : Takes tokens (c >>= f) P' := by
  refine first.bind ?_
  rintro _ a ⟨rfl, h⟩
  exact second a h

theorem ask : Takes tokens (read : Compiler Context) fun rest _ => rest = tokens ∧ True :=
  look (fun _ _ => rfl) fun _ _ _ => trivial

theorem get : Takes tokens (get : Compiler State) fun rest s => rest = tokens ∧ s.rest = tokens :=
  look (g := fun _ s => s) (fun _ _ => rfl) fun _ _ hs => hs

theorem here : Takes tokens here fun rest _ => rest = tokens ∧ True := look (fun _ _ => rfl) fun _ _ _ => trivial

theorem peek? : Takes tokens peek? fun rest t? => rest = tokens ∧ t? = tokens.head? :=
  look (fun _ _ => rfl) fun _ _ hs => by rw [hs]

theorem peekSecond? : Takes tokens peekSecond? fun rest t? => rest = tokens ∧ t? = tokens[1]? :=
  look (fun _ _ => rfl) fun _ _ hs => by rw [hs]

theorem atOp (op : Operator) :
    Takes tokens (atOp op) fun rest yes => rest = tokens ∧ yes = tokens.head?.any (·.isOp op) :=
  look (fun _ _ => rfl) fun _ _ hs => by rw [hs]

theorem advance? : Takes tokens advance? fun rest _ => rest = tokens.tail :=
  ⟨fun hs hc => by cases hc; rw [hs]⟩

theorem skip {f : Option Token → Compiler β} (h : ∀ t?, Takes tokens.tail (f t?) P') :
    Takes tokens (Compiler.advance? >>= f) P' := by
  refine advance?.bind ?_
  rintro _ t? rfl
  exact h t?

theorem eatIf (p : Token → Bool) : Takes tokens (eatIf p) fun rest t? => match t? with
    | some t => tokens = t :: rest ∧ p t = true
    | none => rest = tokens := by
  refine get.see fun s hs => .ite (fun holds => ⟨fun {ctx s₁ _ _} hs₁ hc => ?_⟩) fun _ => pure rfl
  rw [hs] at holds
  cases hc
  rw [hs₁]
  cases tokens with
  | nil => cases holds
  | cons t rest => exact ⟨rfl, holds⟩

theorem expect (p : Token → Bool) (cause : CompileError.Cause) :
    Takes tokens (expect p cause) fun rest t => tokens = t :: rest ∧ p t = true := by
  refine (eatIf p).bind fun rest t? h => ?_
  cases t? with
  | none => exact get.see fun _ _ => here.see fun _ _ => fail _ _
  | some t => exact pure h

theorem iterate {step : σ → Compiler (σ ⊕ α)} (I : List Token → σ → Prop)
    (hs : ∀ ts st, I ts st → Takes ts (step st) fun rest r => match r with
      | .inl st => I rest st
      | .inr a => P rest a) (turns : Nat) {st : σ} (h : I tokens st) : Takes tokens (iterate step turns st) P := by
  induction turns generalizing tokens st with
  | zero => exact ask.see fun _ _ => fail _ _
  | succ turns ih =>
    refine (hs tokens st h).bind fun rest r hr => ?_
    cases r with
    | inl st => exact ih hr
    | inr a => exact pure hr

theorem loop {start : σ} {step : σ → Compiler (σ ⊕ α)} (I : List Token → σ → Prop) (h : I tokens start)
    (hs : ∀ ts st, I ts st → Takes ts (step st) fun rest r => match r with
      | .inl st => I rest st
      | .inr a => P rest a) : Takes tokens (loop start step) P :=
  ask.see fun ctx _ => iterate I hs ctx.turns h

theorem passing {start : σ} {step : σ → Compiler (σ ⊕ α)}
    (hs : ∀ ts st, Takes ts (step st) fun rest _ => Passed Token.Plain ts rest) :
    Takes tokens (Compiler.loop start step) fun rest _ => Passed Token.Plain tokens rest := by
  refine loop (fun ts _ => Passed Token.Plain tokens ts) (.refl tokens) fun ts st h => ⟨fun {_ _ r _} hs' hc => ?_⟩
  have passed := h.trans ((hs ts st).leaves hs' hc)
  cases r with
  | inl => exact passed
  | inr => exact passed

theorem baseType (allowVoid : Bool) (token : Token) :
    Takes tokens (baseType allowVoid token) fun rest _ => rest = tokens ∧ token.Plain := by
  have word {w : Keyword} (h : token.kind = .keyword w) : token.Plain := .of_kind fun op => by rw [h]; nofun
  unfold Compiler.baseType
  split
  case h_1 h => exact .ite (fun _ => pure ⟨rfl, word h⟩) fun _ => fail _ _
  case h_2 h => exact pure ⟨rfl, word h⟩
  case h_3 h => exact pure ⟨rfl, word h⟩
  case h_4 h => exact pure ⟨rfl, word h⟩
  case h_5 h => exact pure ⟨rfl, word h⟩
  case h_6 h =>
    have plain : token.Plain := .of_kind fun op => by rw [h]; nofun
    exact ask.see fun _ _ => .ite (fun _ => pure ⟨rfl, plain⟩) fun _ => fail _ _
  case h_7 => exact fail _ _

theorem arrayOf (ty : Ty) (span : Span) : Takes tokens (arrayOf ty span) fun rest _ => rest = tokens ∧ True :=
  .ite (fun _ => fail _ _) fun _ => pure ⟨rfl, trivial⟩

theorem typeName (allowVoid : Bool) :
    Takes tokens (typeName allowVoid) fun rest _ => Passed Token.Plain tokens rest := by
  refine peek?.see fun token? ht => ?_
  cases tokens with
  | nil =>
    cases ht
    exact ask.see fun _ _ => fail _ _
  | cons token tokens =>
    cases ht
    refine (baseType allowVoid token).see fun base plain => skip fun _ => ?_
    have brackets : Takes tokens (Compiler.loop base fun ty => do
        if (← Compiler.atOp .leftBracket) && (← Compiler.peekSecond?).any (·.isOp .rightBracket) then
          if ty = .void then Compiler.fail .expectedType token.span
          else
            let opening ← Compiler.here
            let _ ← Compiler.advance?
            let _ ← Compiler.advance?
            return .inl (← Compiler.arrayOf ty opening)
        else return .inr ty) fun rest _ => Passed Token.Plain tokens rest := by
      refine passing fun ts ty => (atOp _).see fun _ hl => peekSecond?.see fun _ hr => ?_
      refine .ite (fun both => ?_) fun _ => pure (.refl ts)
      refine .ite (fun _ => fail _ _) fun _ => here.see fun _ _ => skip fun _ => skip fun _ => ?_
      refine (arrayOf _ _).see fun _ _ => ?_
      subst hl hr
      obtain ⟨left, right⟩ := Bool.and_eq_true_iff.1 both
      cases ts with
      | nil => cases left
      | cons l ts =>
        cases ts with
        | nil => cases right
        | cons r ts =>
          refine pure (.step ?_ (.one ?_))
          · exact .of_isOp left nofun nofun nofun nofun
          · exact .of_isOp right nofun nofun nofun nofun
    exact brackets.bind fun rest _ passed => pure (.step plain passed)

theorem expectIdent :
    Takes tokens Compiler.expectIdent fun rest t => tokens = t :: rest ∧ t.kind = .identifier ∧ t.Plain := by
  refine ⟨fun hs hc => ?_⟩
  obtain ⟨same, kind⟩ := (expect _ _).leaves hs hc
  have kind := of_decide_eq_true kind
  exact ⟨same, kind, .of_kind fun op => by rw [kind]; nofun⟩

theorem eatOp (op : Operator) (hp : op ≠ .leftParen) (hq : op ≠ .rightParen) (hl : op ≠ .leftBrace)
    (hr : op ≠ .rightBrace) : Takes tokens (Compiler.eatOp op) fun rest _ => Passed Token.Plain tokens rest := by
  refine ⟨fun {_ _ t? _} hs hc => ?_⟩
  have taken := (eatIf _).leaves hs hc
  cases t? with
  | none => exact taken ▸ .refl _
  | some t => exact taken.1 ▸ .one (.of_isOp taken.2 hp hq hl hr)

theorem fieldLine (cls : ClassLayout) :
    Takes tokens (Compiler.fieldLine cls) fun rest _ => Passed Token.Plain tokens rest := by
  refine (typeName false).bind fun ts₁ (_, ty) h₁ => ?_
  have names : Takes ts₁ (Compiler.loop cls fun cls => do
      let field ← Compiler.expectIdent
      if (cls.fieldIndex? field.text).isSome then Compiler.fail .duplicateSymbol field.span
      else
        let cls := { cls with fields := cls.fields ++ [⟨field.text, ty⟩] }
        if (← Compiler.eatOp .comma).isSome then return .inl cls else return .inr cls)
      fun rest _ => Passed Token.Plain ts₁ rest := by
    refine passing fun ts cls => expectIdent.bind ?_
    rintro rest field ⟨rfl, _, plain⟩
    refine .ite (fun _ => fail _ _) fun _ => (eatOp .comma nofun nofun nofun nofun).bind fun rest' _ h => ?_
    exact .ite (fun _ => pure (.step plain h)) fun _ => pure (.step plain h)
  refine names.bind fun ts₂ cls h₂ => (expect _ _).bind ?_
  rintro rest semicolon ⟨rfl, hop⟩
  exact pure ((h₁.trans h₂).trans (.one (.of_isOp hop nofun nofun nofun nofun)))

theorem classDeclaration (hc : tokens.head?.any (·.isWord .classWord) = true) :
    Takes tokens Compiler.classDeclaration fun rest _ =>
      definedNames 0 tokens = definedNames 0 rest ∧ Unclosed tokens rest := by
  cases tokens with
  | nil => cases hc
  | cons word tokens =>
    have kind : word.kind = .keyword .classWord := of_decide_eq_true hc
    refine skip fun _ => expectIdent.bind ?_
    rintro ts₁ name ⟨rfl, -, plain⟩
    refine ask.see fun ctx _ => .ite (fun _ => fail _ _) fun _ => (expect _ _).bind ?_
    rintro ts₂ left ⟨rfl, hleft⟩
    have lines : Takes ts₂ (Compiler.loop ⟨name.text, []⟩ fun cls => do
        if (← Compiler.eatOp .rightBrace).isSome then return .inr cls else return .inl (← Compiler.fieldLine cls))
        fun rest _ => definedNames 1 ts₂ = definedNames 0 rest ∧ Unclosed ts₂ rest := by
      refine loop (fun ts _ => definedNames 1 ts₂ = definedNames 1 ts ∧ Unclosed ts₂ ts) ⟨rfl, .refl _⟩ ?_
      rintro ts cls ⟨h, unclosed⟩
      refine (eatIf _).bind fun rest right? taken => ?_
      cases right? with
      | some right =>
        obtain ⟨rfl, hright⟩ := taken
        exact pure ⟨h.trans (definedNames_rightBrace hright), unclosed.trans (.one (Token.isOp_of_ne hright nofun))⟩
      | none =>
        obtain rfl := taken
        exact (fieldLine cls).bind fun rest cls passed =>
          pure ⟨h.trans (passed.definedNames nofun), unclosed.trans passed.unclosed⟩
    refine lines.bind ?_
    rintro ts₃ cls ⟨inside, unclosed⟩
    refine (eatIf _).bind fun rest semicolon? taken => pure ?_
    have after : definedNames 0 ts₃ = definedNames 0 rest ∧ Unclosed ts₃ rest := by
      cases semicolon? with
      | none => exact taken ▸ ⟨rfl, .refl _⟩
      | some semicolon =>
        have kind : semicolon.kind = .operator .semicolon := of_decide_eq_true taken.2
        rw [taken.1]
        refine ⟨definedNames_other ?_ ?_ (by rw [kind]; nofun), .one (Token.isOp_of_ne taken.2 nofun)⟩
        · exact Token.isOp_of_ne taken.2 nofun
        · exact Token.isOp_of_ne taken.2 nofun
    have outside : (left :: ts₂).head?.any (·.isOp .leftParen) = false := Token.isOp_of_ne hleft nofun
    have front : Passed Token.Plain (word :: name :: left :: ts₂) (left :: ts₂) :=
      .step (.of_kind fun op => by rw [kind]; nofun) (.one plain)
    refine ⟨?_, front.unclosed.trans (.step (Token.isOp_of_ne hleft nofun) (unclosed.trans after.2))⟩
    rw [front.definedNames fun _ => outside, definedNames_leftBrace hleft, inside, after.1]

theorem parameter : Takes tokens Compiler.parameter fun rest _ => Passed Token.Plain tokens rest := by
  refine (typeName false).bind fun rest _ passed => expectIdent.bind ?_
  rintro rest name ⟨rfl, -, plain⟩
  exact pure (passed.trans (.one plain))

theorem parameters : Takes tokens Compiler.parameters fun rest _ =>
    tokens.head?.any (·.isOp .leftParen) = true ∧ definedNames 0 tokens = definedNames 0 rest ∧
      ∃ close, close.isOp .rightParen = true ∧ Unclosed tokens (close :: rest) := by
  have paren {t : Token} {op : Operator} {ts : List Token} (h : t.isOp op = true) (hl : op ≠ .leftBrace)
      (hr : op ≠ .rightBrace) : definedNames 0 (t :: ts) = definedNames 0 ts := by
    refine definedNames_other (Token.isOp_of_ne h hl) (Token.isOp_of_ne h hr) ?_
    rw [show t.kind = .operator op from of_decide_eq_true h]
    nofun
  refine (expect _ _).bind ?_
  rintro ts left ⟨rfl, hleft⟩
  have opened {rest : List Token} (h : Unclosed ts rest) : Unclosed (left :: ts) rest :=
    .step (Token.isOp_of_ne hleft nofun) h
  refine (eatIf _).bind fun rest right? taken => .ite (fun some => ?_) fun none => ?_
  · obtain ⟨right, rfl⟩ := Option.isSome_iff_exists.1 some
    obtain ⟨rfl, hright⟩ := taken
    exact pure ⟨hleft, (paren hleft nofun nofun).trans (paren hright nofun nofun), right, hright, opened (.refl _)⟩
  · obtain rfl := Option.not_isSome_iff_eq_none.1 none
    obtain rfl := taken
    have list : Takes rest (Compiler.commaList Compiler.parameter) fun rest' _ => Passed Token.Plain rest rest' := by
      refine passing fun ts latestFirst => parameter.bind fun ts₁ _ passed => ?_
      refine (eatOp .comma nofun nofun nofun nofun).bind fun ts₂ _ comma => .ite (fun _ => ?_) fun _ => ?_
      · exact pure (passed.trans comma)
      · exact pure (passed.trans comma)
    refine list.bind fun ts params passed => (expect _ _).bind ?_
    rintro rest' right ⟨rfl, hright⟩
    refine pure ⟨hleft, ?_, right, hright, opened passed.unclosed⟩
    rw [paren hleft nofun nofun, passed.definedNames fun _ => Token.isOp_of_ne hright nofun, paren hright nofun nofun]

theorem addFunction (h : Header) : Takes tokens (Compiler.addFunction h) fun rest _ => rest = tokens ∧ True := by
  have added : Takes tokens (onScopes (·.addFunction h.signature)) fun rest _ => rest = tokens ∧ True :=
    ⟨fun hs hc => by cases hc; exact ⟨hs, trivial⟩⟩
  exact added.see fun _ _ => .ite (fun _ => pure ⟨rfl, trivial⟩) fun _ => fail _ _

theorem skipBody : Takes tokens Compiler.skipBody fun rest body => definedNames 0 tokens = definedNames 0 rest ∧
    body = tokens ∧ tokens.head?.any (·.isOp .leftBrace) = true ∧ skipBlock? 0 tokens = some rest := by
  refine (atOp _).see fun opens ho => .ite (fun yes => ?_) fun _ => here.see fun _ _ => fail _ _
  subst ho
  refine get.see fun s hs => ?_
  subst hs
  dsimp only
  split
  case h_1 rest skipped =>
    refine ⟨fun _ hc => ?_⟩
    cases hc
    refine ⟨?_, rfl, yes, skipped⟩
    cases hr : s.rest with
    | nil =>
      rw [hr] at yes
      cases yes
    | cons left tokens =>
      rw [hr] at yes skipped
      have yes : left.isOp .leftBrace = true := yes
      rw [skipBlock?, if_pos yes] at skipped
      rw [definedNames_leftBrace yes]
      exact definedNames_skipBlock? skipped
  case h_2 => exact ask.see fun _ _ => fail _ _

/-- A header is that of one function. Its body is the block behind the parameters. -/
theorem functionHeader (id : FunctionId) : Takes tokens (Compiler.functionHeader id) fun rest h =>
    (∃ name, definedNames 0 tokens = name :: definedNames 0 rest ∧ h.name = name.text ∧ h.span = name.span) ∧
      (∃ close, close.isOp .rightParen = true ∧ Unclosed tokens (close :: h.body)) ∧
        h.body.head?.any (·.isOp .leftBrace) = true ∧ skipBlock? 0 h.body = some rest := by
  refine .ite (fun _ => here.see fun _ _ => fail _ _) fun _ => (eatIf _).bind fun ts₁ extern? taken => ?_
  have first : Passed Token.Plain tokens ts₁ := by
    cases extern? with
    | none => exact taken ▸ .refl _
    | some word =>
      have kind : word.kind = .keyword .externWord := of_decide_eq_true taken.2
      exact taken.1 ▸ .one (.of_kind fun op => by rw [kind]; nofun)
  refine (typeName true).bind fun ts₂ (_, ret) second => expectIdent.bind ?_
  rintro ts₃ name ⟨rfl, kind, plain⟩
  refine parameters.bind fun ts₄ params ⟨opens, third, close, closes, unclosed⟩ => ?_
  refine (addFunction _).see fun _ _ => skipBody.bind ?_
  rintro rest body ⟨fourth, rfl, block, skipped⟩
  refine pure ⟨⟨name, ?_, rfl, rfl⟩, ⟨close, closes, ?_⟩, block, skipped⟩
  · have names : definedNames 0 (name :: ts₃) = name :: definedNames 0 ts₃ := definedNames_name kind opens
    rw [(first.trans second).definedNames fun _ => plain.leftParen, names, third, fourth]
  · exact (first.trans second).unclosed.trans (.step plain.rightParen unclosed)

end Takes

/-- The name of a function and its range in the definition. -/
def Token.named (t : Token) : String × Span := (t.text, t.span)

/-- The headers that were read are those of the functions that are defined before the rest. -/
def Compile.Outline.Names (tokens : List Token) (o : Outline) : Prop :=
  (definedNames 0 tokens).map Token.named =
    o.headers.map (fun h => (h.name, h.span)) ++ (definedNames 0 o.state.rest).map Token.named

theorem Compile.Outline.Names.extend {tokens : List Token} {o : Outline} {ctx : Context} (ho : o.Names tokens)
    (fine : (o.extend ctx).error = none) : (o.extend ctx).Names tokens := by
  unfold Names at ho ⊢
  obtain ⟨cls, _, s', hc, same⟩ | ⟨h, s', hc, same⟩ := extend_cases fine
  · rw [ho, same, ((Takes.classDeclaration cls).leaves rfl hc).1]
  · obtain ⟨⟨name, names, text, span⟩, -⟩ := (Takes.functionHeader _).leaves rfl hc
    rw [ho, same, names]
    simp [Token.named, text, span]

theorem names_outline {env : Environment} {tokens : List Token} (fine : (outline env tokens).error = none)
    (complete : (outline env tokens).state.rest = []) :
    (outline env tokens).headers.map (fun h => (h.name, h.span)) = (definedNames 0 tokens).map Token.named := by
  have start : (Outline.start env tokens).Names tokens := rfl
  have names : (outline env tokens).Names tokens :=
    Outline.complete_of_extend (Q := (·.Names tokens)) (fun ho fine => ho.extend fine) start _ fine
  unfold Outline.Names at names
  rw [names, complete, definedNames, List.map_nil, List.append_nil]

theorem Program.names_ofTokens {id : String} {env : Environment} {tokens : List Token} {p : Program}
    (h : ofTokens id env tokens = .ok p) :
    p.functions.map (fun f => (f.name, f.span)) = (definedNames 0 tokens).map Token.named := by
  let places : Places := ⟨fun _ => True, endSpan tokens⟩
  have knows (_ : (outline env tokens).error = none) : ∀ f ∈ (outline env tokens).state.scopes.functions, True :=
    fun _ _ => trivial
  obtain ⟨fine, follows, _⟩ := functions_of_ofTokens (P := places) (fun _ _ => trivial) rfl knows h
  have complete := (sound_outline (P := places) (fun _ _ => trivial) rfl).2 fine
  rw [← names_outline fine complete, ← List.forall₂_eq_eq_eq, List.forall₂_map_left_iff, List.forall₂_map_right_iff]
  exact follows.imp fun f h same => Prod.ext same.name same.span

end Tickwise
