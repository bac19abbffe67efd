import Tickwise.Proofs.Compile.BesideHeaders
set_option autoImplicit false

/-!
# Where bodies end

The first pass over a unit counts braces to find the end of a body. The second pass reads the body by its grammar
and stops behind the same brace. So both passes cut the unit into the same pieces.
-/
namespace Tickwise

open Compile Compiler

theorem Compile.Aligned.of_skipBlock? {K : Sides} {block block' : List Token}
    (same : block.Forall₂ (Token.Alike K.R) block')
    {depth : Nat} (h : skipBlock? (depth + 1) (block ++ K.left) = some K.left) :
    Aligned K (depth + 1) (block ++ K.left) (block' ++ K.right) := by
  induction same generalizing depth with
  | nil => exact absurd (skipBlock?_suffix h).2 (Nat.lt_irrefl _)
  | @cons t u block block' first more ih =>
    refine .step first ?_
    rw [List.cons_append] at h
    unfold skipBlock? at h
    unfold Token.depthBehind
    split at h
    case isTrue left =>
      rw [if_pos left]
      exact ih h
    case isFalse left =>
      rw [if_neg left]
      split at h
      case isTrue right =>
        rw [if_pos right]
        cases depth with
        | zero =>
          -- The last brace: nothing of the block is behind it.
          obtain rfl : block = [] := List.append_left_eq_self.1 (Option.some.inj h)
          cases more
          exact .done
        | succ depth => exact ih h
      case isFalse right =>
        rw [if_neg right]
        exact ih h

theorem Compile.Aligned.skips {K : Sides} {depth : Nat} {ts us : List Token} (h : Aligned K depth ts us) :
    depth = 0 ∧ us = K.right ∨ 0 < depth ∧ skipBlock? depth us = some K.right := by
  induction h with
  | done => exact .inl ⟨rfl, rfl⟩
  | @step depth t u ts us same _ ih =>
    refine .inr ⟨Nat.succ_pos depth, ?_⟩
    unfold Token.depthBehind at ih
    rw [same.isOp, same.isOp] at ih
    unfold skipBlock?
    split
    case isTrue left =>
      rw [if_pos left] at ih
      exact (ih.resolve_left fun outside => Nat.succ_ne_zero _ outside.1).2
    case isFalse left =>
      rw [if_neg left] at ih
      split
      case isTrue right =>
        rw [if_pos right, Nat.add_sub_cancel] at ih
        split
        case isTrue last =>
          obtain ⟨_, rfl⟩ := ih.resolve_right fun inside =>
            Nat.not_lt_zero 0 (Nat.lt_of_lt_of_le inside.1 (Nat.le_of_succ_le_succ last))
          rfl
        case isFalse inner =>
          exact (ih.resolve_left fun outside => inner (Nat.succ_le_succ (Nat.le_of_eq outside.1))).2
      case isFalse right =>
        rw [if_neg right] at ih
        exact (ih.resolve_left fun outside => Nat.succ_ne_zero _ outside.1).2

theorem ScopeStack.Alike.refl {K : Sides} (hR : ∀ span, K.R span span) {s : ScopeStack}
    (known : K.known s.functions s.natives) : s.Alike K s := by
  refine ⟨List.forall₂_same.2 fun f _ => ⟨rfl, List.forall₂_same.2 fun v _ => ⟨rfl, rfl⟩⟩, rfl, rfl, known, ?_⟩
  cases s.error with
  | none => exact .none
  | some e => exact .some (.mk e.cause (hR e.span))

theorem block_of_skipBlock? {body rest : List Token} (opens : body.head?.any (·.isOp .leftBrace) = true)
    (skipped : skipBlock? 0 body = some rest) : ∃ t inner, body = t :: (inner ++ rest) ∧ t.isOp .leftBrace = true ∧
      skipBlock? 1 (inner ++ rest) = some rest := by
  cases body with
  | nil => cases opens
  | cons t ts =>
    have left : t.isOp .leftBrace = true := opens
    rw [skipBlock?, if_pos left] at skipped
    obtain ⟨⟨inner, rfl⟩, _⟩ := skipBlock?_suffix skipped
    exact ⟨t, inner, rfl, left, skipped⟩

abbrev Compile.SameBodies (R : Span → Span → Prop) : List Token → List Token → List Token → List Token → Prop :=
  Bodies R (List.Forall₂ (Token.Alike R))

theorem Compile.SameBodies.refl {body rest : List Token} (opens : body.head?.any (·.isOp .leftBrace) = true)
    (skipped : skipBlock? 0 body = some rest) : SameBodies Eq body body rest rest := by
  obtain ⟨t, inner, rfl, left, skipped⟩ := block_of_skipBlock? opens skipped
  have alike (t : Token) : t.Alike Eq t := .mk t.kind t.text rfl
  exact .mk left (alike t) skipped skipped (List.forall₂_same.2 fun t _ => alike t)

theorem Compile.ParamsAlike.refl (params : List (Token × Ty)) : ParamsAlike Eq params params :=
  List.forall₂_same.2 fun p _ => ⟨.mk p.1.kind p.1.text rfl, rfl⟩

theorem Beside.ofBodies {K : Sides} {h h' : Header} (params : ParamsAlike K.R h.params h'.params)
    (bodies : SameBodies K.R h.body h'.body K.left K.right) (ts us : List Token) :
    Beside K ts us (Compiler.functionBody h) (Compiler.functionBody h') (Inside (Aligned K 0) fun _ _ => True) := by
  obtain ⟨R, left, right, stop, known⟩ := K
  generalize body : h.body = b at bodies
  generalize body' : h'.body = b' at bodies
  obtain ⟨_, same, skipped, _, related⟩ := bodies
  exact .functionBody params body body' same (.of_skipBlock? related skipped)

def Header.Braced (h : Header) : Prop :=
  h.body.head?.any (·.isOp .leftBrace) = true ∧ ∃ rest, skipBlock? 0 h.body = some rest

theorem rest_of_functionBody {h : Header} {rest : List Token} (opens : h.body.head?.any (·.isOp .leftBrace) = true)
    (skipped : skipBlock? 0 h.body = some rest) {ctx : Context} {s s' : State} {f : Function}
    (hc : functionBody h ctx s = (some f, s')) : s'.rest = rest := by
  -- The routine beside itself: at the end both sides are behind the block.
  let K : Sides := ⟨Eq, rest, rest, ctx.endSpan, fun _ _ => True⟩
  have both : Beside K s.rest s.rest (functionBody h) (functionBody h) (Inside (Aligned K 0) fun _ _ => True) :=
    .ofBodies (.refl h.params) (.refl opens skipped) _ _
  have ends := both.ends ctx rfl rfl rfl (ScopeStack.Alike.refl (K := K) (fun _ => rfl) trivial)
  have same : { ctx with endSpan := K.stop } = ctx := rfl
  rw [same, hc] at ends
  obtain ⟨_, closed, _⟩ := ends
  cases closed
  rfl

namespace Compile

/-- How a unit is cut, from one position to another: the first pass reads classes and over functions, and a function
is a head and the block behind it, to the end of which its body is compiled. -/
inductive Cut : List Token → List Token → List Header → Prop where
  | refl (tokens : List Token) : Cut tokens tokens []
  | classDeclaration {front rest stop : List Token} {headers : List Header} {ctx : Context} {s s' : State}
      {cls : ClassLayout} (run : Compiler.classDeclaration ctx s = (some cls, s')) (before : s.rest = front ++ rest)
      (begins : s.rest.head?.any (·.isWord .classWord) = true) (after : s'.rest = rest) (more : Cut rest stop headers) :
      Cut (front ++ rest) stop headers
  | function {head block rest stop : List Token} {headers : List Header} {id : FunctionId} {ctx : Context}
      {s s' : State} {h : Header} (run : functionHeader id ctx s = (some h, s')) (before : s.rest = head ++ h.body)
      (body : h.body = block ++ rest) (opens : block.head?.any (·.isOp .leftBrace) = true) (after : s'.rest = rest)
      (compiled : ∀ {ctx s f s'}, functionBody h ctx s = (some f, s') → s'.rest = rest)
      (more : Cut rest stop headers) : Cut (head ++ (block ++ rest)) stop (h :: headers)

theorem Cut.trans {tokens mid stop : List Token} {headers headers' : List Header} (first : Cut tokens mid headers)
    (second : Cut mid stop headers') : Cut tokens stop (headers ++ headers') := by
  induction first with
  | refl => exact second
  | classDeclaration run before begins after _ ih => exact .classDeclaration run before begins after (ih second)
  | function run before body opens after compiled _ ih =>
    exact .function run before body opens after compiled (ih second)

theorem Cut.braced {tokens stop : List Token} {headers : List Header} (cut : Cut tokens stop headers) :
    ∀ h ∈ headers, h.Braced := by
  induction cut with
  | refl => nofun
  | classDeclaration _ _ _ _ _ ih => exact ih
  | function run _ _ _ _ _ _ ih =>
    obtain ⟨-, -, opens, skipped⟩ := (Takes.functionHeader _).leaves rfl run
    exact List.forall_mem_cons.2 ⟨⟨opens, _, skipped⟩, ih⟩

theorem Cut.of_classDeclaration {ctx : Context} {s s' : State} {cls : ClassLayout}
    (begins : s.rest.head?.any (·.isWord .classWord) = true) (run : Compiler.classDeclaration ctx s = (some cls, s')) :
    Cut s.rest s'.rest [] := by
  obtain ⟨front, before, -⟩ := ((Takes.classDeclaration begins).leaves rfl run).2.append
  rw [before]
  exact .classDeclaration run before begins rfl (.refl _)

theorem Cut.of_functionHeader {id : FunctionId} {ctx : Context} {s s' : State} {h : Header}
    (run : functionHeader id ctx s = (some h, s')) : Cut s.rest s'.rest [h] := by
  obtain ⟨-, ⟨close, -, passed⟩, opens, skipped⟩ := (Takes.functionHeader id).leaves rfl run
  obtain ⟨front, before, -⟩ := passed.append
  obtain ⟨t, inner, body, left, -⟩ := block_of_skipBlock? opens skipped
  have before : s.rest = (front ++ [close]) ++ h.body := by rw [before, List.append_assoc, List.singleton_append]
  have body : h.body = (t :: inner) ++ s'.rest := body
  have piece : Cut ((front ++ [close]) ++ ((t :: inner) ++ s'.rest)) s'.rest [h] :=
    .function run before body left rfl (rest_of_functionBody opens skipped) (.refl _)
  rwa [← body, ← before] at piece

theorem head_of_functionHeader {id : FunctionId} {ctx : Context} {s s' : State} {h : Header} {head : List Token}
    (run : functionHeader id ctx s = (some h, s')) (before : s.rest = head ++ h.body) :
    ∃ front close, head = front ++ [close] ∧ close.isOp .rightParen = true ∧
      ∀ t ∈ front, t.isOp .rightParen = false := by
  obtain ⟨-, ⟨close, closes, passed⟩, -, -⟩ := (Takes.functionHeader id).leaves rfl run
  obtain ⟨front, before', unclosed⟩ := passed.append
  refine ⟨front, close, ?_, closes, unclosed⟩
  exact List.append_cancel_right (before.symm.trans (before'.trans (List.append_cons front close h.body)))

/-- The outline is of what it has read so far. -/
structure Outline.Cuts (tokens : List Token) (o : Outline) : Prop where
  cut : Cut tokens o.state.rest o.headers
  idle : o.state.scopes.error = none

namespace Outline

variable {tokens : List Token} {o : Outline} {ctx : Context}

theorem Cuts.extend (ho : o.Cuts tokens) (fine : (o.extend ctx).error = none) : (o.extend ctx).Cuts tokens := by
  obtain ⟨cls, _, s', hc, same⟩ | ⟨h, s', hc, same⟩ := extend_cases fine
  · have piece : Cut o.state.rest s'.rest [] := .of_classDeclaration cls hc
    rw [same]
    exact ⟨List.append_nil o.headers ▸ ho.cut.trans piece, rfl⟩
  · have piece : Cut o.state.rest s'.rest [h] := .of_functionHeader hc
    rw [same]
    exact ⟨ho.cut.trans piece, rfl⟩

theorem headers_extend_of_error (idle : o.state.scopes.error = none) {e : CompileError}
    (h : (o.extend ctx).error = some e) : (o.extend ctx).headers = o.headers := by
  cases begins : o.state.rest.head?.any (·.isWord .classWord) with
  | true => rw [extend_of_class begins, withClass]
  | false =>
    rw [extend_of_function begins] at h ⊢
    cases run : functionHeader o.headers.length { ctx with classes := o.classes } o.state with
    | mk header? s' =>
      rw [run] at h
      cases header? with
      | none => exact List.append_nil _
      | some header =>
        have scopes := (functions_of_functionHeader run).2
        have fine : s'.scopes.error = none := by rw [scopes]; exact idle
        exact absurd (h.symm.trans fine) (Option.some_ne_none e)

/-- The headers of an outline are from the front of the unit; without an error they are from all of it. -/
theorem Cuts.complete (ctx : Context) (ho : o.Cuts tokens) (fine : o.error = none) (turns : Nat) :
    ∃ stop, Cut tokens stop (Outline.complete ctx turns o).headers ∧
      ((Outline.complete ctx turns o).error = none → stop = (Outline.complete ctx turns o).state.rest) := by
  induction turns generalizing o with
  | zero => exact ⟨_, ho.cut, fun _ => rfl⟩
  | succ turns ih =>
    unfold Outline.complete
    split
    case isTrue => exact ⟨_, ho.cut, fun _ => rfl⟩
    case isFalse =>
      cases he : (o.extend ctx).error with
      | none => exact ih (ho.extend he) he
      | some e =>
        rw [complete_of_done (.inr (by rw [he]; rfl)), headers_extend_of_error ho.idle he]
        exact ⟨_, ho.cut, fun none => absurd (he.symm.trans none) (Option.some_ne_none e)⟩

end Outline

theorem cut_outline (env : Environment) (tokens : List Token) :
    ∃ stop, Cut tokens stop (outline env tokens).headers ∧ ((outline env tokens).error = none → stop = []) := by
  have start : (Outline.start env tokens).Cuts tokens := ⟨.refl tokens, rfl⟩
  obtain ⟨stop, cut, all⟩ := start.complete (unitContext env tokens) rfl tokens.length
  obtain ⟨_, complete⟩ : (outline env tokens).Sound (placesOf tokens) tokens.length ∧ _ :=
    sound_outline (fun t ht => ⟨t, ht, rfl⟩) rfl
  exact ⟨stop, cut, fun fine => (all fine).trans (complete fine)⟩

theorem braced_outline (env : Environment) (tokens : List Token) : ∀ h ∈ (outline env tokens).headers, h.Braced := by
  obtain ⟨_, cut, -⟩ := cut_outline env tokens
  exact cut.braced

theorem compiled_of_compileBodies {ctx : Context} {headers : List Header} {s s' : State} {functions : List Function}
    (h : compileBodies ctx headers s = .ok (functions, s')) :
    functions.Forall₂ (fun f h => ∃ ctx s s', functionBody h ctx s = (some f, s')) headers := by
  induction headers generalizing s functions with
  | nil =>
    cases h
    exact .nil
  | cons header headers ih =>
    unfold compileBodies compileBody at h
    cases run : functionBody header { ctx with ret := header.ret, breakables := [] } s with
    | mk f? s₁ =>
      rw [run] at h
      cases f? with
      | none => cases h
      | some f =>
        dsimp only at h
        cases rest : compileBodies ctx headers s₁ with
        | error => rw [rest] at h; cases h
        | ok answer =>
          rw [rest] at h
          cases h
          exact .cons ⟨_, _, _, run⟩ (ih rest)

end Compile

namespace Program

/-- Both passes cut a unit into the same pieces: each body that is compiled ends where the first pass went on, and the
pieces of a unit that is compiled are all of it. -/
theorem passes_agree (env : Environment) (tokens : List Token) :
    (∀ h ∈ (outline env tokens).headers, ∃ rest, skipBlock? 0 h.body = some rest ∧
      ∀ {ctx s f s'}, functionBody h ctx s = (some f, s') → s'.rest = rest) ∧
    ∃ stop, Cut tokens stop (outline env tokens).headers ∧
      ∀ {id p}, ofTokens id env tokens = .ok p → stop = [] ∧
        p.functions.Forall₂ (fun f h => ∃ ctx s s', functionBody h ctx s = (some f, s'))
          (outline env tokens).headers := by
  obtain ⟨stop, cut, all⟩ := cut_outline env tokens
  refine ⟨fun h mem => ?_, stop, cut, fun h => ?_⟩
  · obtain ⟨opens, rest, skipped⟩ := braced_outline env tokens h mem
    exact ⟨rest, skipped, rest_of_functionBody opens skipped⟩
  obtain ⟨fine, _, _, bodies, rfl⟩ := compiled_of_ofTokens h
  exact ⟨all fine, compiled_of_compileBodies bodies⟩

/-!
Blocks in a block: a list, a switch, and a handler.
-/
namespace Braces

def unit : List Token := Lexer.tokens
  "void f(int n) { int[] m[] = {{1}, {}}; switch (n) { case 1: {} } try { throw n; } catch (true) {} }
   class C { int x; } void main() {}"

theorem passes_agree_braces : ∃ p, ofTokens "braces" .empty unit = .ok p ∧ p.functions.length = 2 ∧
    Cut unit [] (outline .empty unit).headers := by
  obtain ⟨compiled, length⟩ :
      (ofTokens "braces" .empty unit).isOk = true ∧ (outline .empty unit).headers.length = 2 := by
    decide +kernel
  cases h : ofTokens "braces" .empty unit with
  | error e =>
    rw [h] at compiled
    cases compiled
  | ok p =>
    obtain ⟨-, stop, cut, all⟩ := passes_agree .empty unit
    obtain ⟨rfl, each⟩ := all h
    exact ⟨p, rfl, each.length_eq.trans length, cut⟩

end Braces
end Program
end Tickwise
