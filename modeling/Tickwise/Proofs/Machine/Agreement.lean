import Tickwise.Proofs.Machine.Positions
set_option autoImplicit false

/-!
# Moves and what frames wait for

Each move at a position of a form executes what `Form.waiting` says is executed there.
-/
namespace Tickwise

open Exec

namespace Waiting

variable {ι : Type} {items : List ι} {index : Int} {a : ι}

theorem onEntry_of_some (h : itemAt? items index = some a) : onEntry items index = child a := by
  simp [onEntry, h]

theorem onEntry_of_none (h : itemAt? items index = none) : onEntry items index = invalid := by
  simp [onEntry, h]

theorem beforeEntry_of_some (h : itemAt? items index = some a) :
    beforeEntry items index = idle := by
  simp [beforeEntry, h]

/-- Nothing executes beneath the frame. -/
def AtRest : Waiting ι → Prop
  | idle | invalid => True
  | _ => False

end Waiting

open Waiting

theorem Form.state_lt_of_waiting {ι : Type} {form : Form ι} {state : Nat} {index : Int}
    (h : form.waiting state index ≠ .invalid) : state < form.states := by
  revert h
  unfold waiting
  split <;> simp [states]

theorem Form.mem_children_of_waiting {form : Form Instr} {state : Nat} {index : Int} {c : Instr}
    (h : form.waiting state index = .child c) : c ∈ form.children := by
  have entry {items : List Instr} (h : Waiting.onEntry items index = .child c) : c ∈ items := by
    unfold Waiting.onEntry at h
    cases hi : itemAt? items index with
    | none => rw [hi] at h; cases h
    | some i => rw [hi] at h; cases h; exact mem_of_itemAt? hi
  have clause {catches : List (Catch Instr)} {part : Catch Instr → Instr}
      (h : ((itemAt? catches index).map fun k => Waiting.child (part k)).getD .invalid = .child c) :
      ∃ k ∈ catches, part k = c := by
    cases hi : itemAt? catches index with
    | none => rw [hi] at h; cases h
    | some k => rw [hi] at h; cases h; exact ⟨k, mem_of_itemAt? hi, rfl⟩
  have before {items : List Instr} (h : Waiting.beforeEntry items index = .child c) : c ∈ items := by
    unfold Waiting.beforeEntry at h
    split at h <;> cases h
  unfold waiting at h
  split at h
  all_goals first
    | cases h; simp [children]
    | have mem := entry h; simp [children, mem]
    | have mem := before h; simp [children, mem]
    | obtain ⟨k, hk, rfl⟩ := clause h; simp [children]; exact .inr ⟨k, hk, by simp⟩
    | cases h

namespace Move

/-- A move executes what a frame waits for. Where it does not execute an instruction the frame waits for
nothing, unless the instruction is over. -/
def Agrees (p : Program) (form : Form Instr) (waits : Waiting Instr) : Move → Prop
  | run c _ => waits = .child c ∨
      ∃ id g, waits = .callee id ∧ p.function? id = some g ∧ c = g.body
  | pass .. => waits = .idle
  | enter g => waits = .idle ∧
      ∃ id args ret, form = .call (.user id) args ret ∧ p.function? id = some g
  | invoke id _ _ => waits = .idle ∧ ∃ args ret, form = .call (.native id) args ret
  | act action => waits.AtRest ∨ ∀ m m', action m ≠ (.ok none, m')

namespace Agrees

variable {p : Program} {form : Form Instr} {f : Frame Variable} {waits : Waiting Instr}

theorem finish (c : Exec Variable) : (Move.act (finish c)).Agrees p form waits :=
  .inr (finish_ne_none c)

theorem throw (e : Interrupt) : (Move.act (throw e)).Agrees p form waits := .inr nofun

theorem faultAt (span : Span) (fault : Fault) : (Move.act (faultAt span fault)).Agrees p form waits :=
  .inr nofun

theorem sequence (items : List Instr) (index : Int) (state : Nat)
    (afterwards : Exec (Option Variable)) :
    (Move.sequence items index state afterwards).Agrees p form (onEntry items index) := by
  unfold Move.sequence
  split
  case h_1 i hi => exact .inl (onEntry_of_some hi)
  case h_2 hi =>
    rw [onEntry_of_none hi]
    exact .inl trivial

theorem collect (es : List Instr) (index : Int) (afterwards : Exec (Option Variable)) :
    (Move.collect es index afterwards).Agrees p form (onEntry es index) := by
  unfold Move.collect
  split
  case h_1 e he => exact .inl (onEntry_of_some he)
  case h_2 he =>
    rw [onEntry_of_none he]
    exact .inl trivial

theorem ofBlock (body : List Instr) (hs : f.state < 2) :
    (Move.ofBlock body f).Agrees p form ((Form.block body).waiting f.state f.index) := by
  unfold Move.ofBlock
  split
  case h_1 => exact finish _
  case h_2 s hi =>
    split
    case isTrue h₀ =>
      rw [h₀]
      exact beforeEntry_of_some hi
    case isFalse h₀ =>
      obtain h₁ : f.state = 1 := by omega
      rw [h₁]
      exact .inl (onEntry_of_some hi)

theorem ofDeclare (span : Span) (var : VarId) (name : String) (ty : Ty) (dims : List Instr)
    (init : Option Instr) (hs : f.state < 2) :
    (Move.ofDeclare span var name ty dims init f).Agrees p form
      ((Form.declare var name ty dims init).waiting f.state f.index) := by
  unfold Move.ofDeclare
  split
  case isTrue h₀ =>
    rw [h₀]
    exact collect ..
  case isFalse h₀ =>
    obtain h₁ : f.state = 1 := by omega
    rw [h₁]
    cases init with
    | some init => exact .inl rfl
    | none => exact finish _

theorem ofBranch (cond yes : Instr) (no : Option Instr) (hs : f.state < 3) :
    (Move.ofBranch cond yes no f).Agrees p form
      ((Form.branch cond yes no).waiting f.state f.index) := by
  unfold Move.ofBranch
  split
  case h_1 h₀ => rw [h₀]; exact .inl rfl
  case h_2 h₁ => rw [h₁]; exact .inl rfl
  case h_3 h₀ h₁ =>
    obtain h₂ : f.state = 2 := by grind
    rw [h₂]
    cases no with
    | some no => exact .inl rfl
    | none => exact finish _

theorem ofWhile (span : Span) (label : Option String) (cond body : Instr) (hs : f.state < 3) :
    (Move.ofWhile span label cond body f).Agrees p form
      ((Form.whileLoop label cond body).waiting f.state f.index) := by
  unfold Move.ofWhile
  split
  case h_1 h₀ => rw [h₀]; exact .inl rfl
  case h_2 h₁ => rw [h₁]; rfl
  case h_3 h₀ h₁ =>
    obtain h₂ : f.state = 2 := by grind
    rw [h₂]
    exact .inl rfl

theorem ofDoWhile (span : Span) (label : Option String) (body cond : Instr) (hs : f.state < 3) :
    (Move.ofDoWhile span label body cond f).Agrees p form
      ((Form.doWhile label body cond).waiting f.state f.index) := by
  unfold Move.ofDoWhile
  split
  case h_1 h₀ => rw [h₀]; rfl
  case h_2 h₁ => rw [h₁]; exact .inl rfl
  case h_3 h₀ h₁ =>
    obtain h₂ : f.state = 2 := by grind
    rw [h₂]
    exact .inl rfl

theorem ofFor (span : Span) (label : Option String) (init : List Instr) (cond : Option Instr)
    (next : List Instr) (body : Instr) (hs : f.state < 5) :
    (Move.ofFor span label init cond next body f).Agrees p form
      ((Form.forLoop label init cond next body).waiting f.state f.index) := by
  unfold Move.ofFor
  split
  case h_1 h₀ => rw [h₀]; exact sequence ..
  case h_2 h₁ =>
    rw [h₁]
    cases cond with
    | some cond => exact .inl rfl
    | none => exact .inl trivial
  case h_3 h₂ => rw [h₂]; rfl
  case h_4 h₃ => rw [h₃]; exact .inl rfl
  case h_5 h₀ h₁ h₂ h₃ =>
    obtain h₄ : f.state = 4 := by grind
    rw [h₄]
    exact sequence ..

theorem ofSwitch (span : Span) (label : Option String) (value : Instr) (cases : List Case)
    (body : List Instr) (hs : f.state < 3) :
    (Move.ofSwitch span label value cases body f).Agrees p form
      ((Form.switch label value cases body).waiting f.state f.index) := by
  unfold Move.ofSwitch
  split
  case isTrue h₀ => rw [h₀]; exact .inl rfl
  case isFalse h₀ =>
    split
    case h_1 => exact finish _
    case h_2 s hi =>
      split
      case isTrue h₁ =>
        rw [h₁]
        exact beforeEntry_of_some hi
      case isFalse h₁ =>
        obtain h₂ : f.state = 2 := by omega
        rw [h₂]
        exact .inl (onEntry_of_some hi)

theorem ofTry (body : Instr) (cs : List (Catch Instr)) (hs : f.state < 3) :
    (Move.ofTry body cs f).Agrees p form ((Form.tryCatch body cs).waiting f.state f.index) := by
  unfold Move.ofTry
  split
  case isTrue h₀ => rw [h₀]; exact .inl rfl
  case isFalse h₀ =>
    split
    case h_1 => exact faultAt _ _
    case h_2 =>
      split
      case h_1 => exact throw _
      case h_2 c hi =>
        split
        case isTrue h₂ =>
          rw [h₂]
          exact .inl (by simp [Form.waiting, hi])
        case isFalse h₂ =>
          obtain h₁ : f.state = 1 := by omega
          rw [h₁]
          exact .inl (by simp [Form.waiting, hi])

theorem ofStore (span : Span) (place : Place Instr) (op : Option BinaryOp) (operandTy : Ty)
    (value : Instr) (hs : f.state < 2) :
    (Move.ofStore span place op operandTy value f).Agrees p form
      ((Form.store place op operandTy value).waiting f.state f.index) := by
  unfold Move.ofStore
  split
  case isTrue h₀ => rw [h₀]; exact collect ..
  case isFalse h₀ =>
    obtain h₁ : f.state = 1 := by omega
    rw [h₁]
    exact .inl rfl

theorem ofBinary (span : Span) (op : BinaryOp) (operandTy : Ty) (left right : Instr)
    (hs : f.state < 2) :
    (Move.ofBinary span op operandTy left right f).Agrees p form
      ((Form.binary op operandTy left right).waiting f.state f.index) := by
  unfold Move.ofBinary
  split
  case isTrue h₀ => rw [h₀]; exact .inl rfl
  case isFalse h₀ =>
    obtain h₁ : f.state = 1 := by omega
    rw [h₁]
    exact .inl rfl

theorem ofLogical (span : Span) (isAnd : Bool) (left right : Instr) (hs : f.state < 2) :
    (Move.ofLogical span isAnd left right f).Agrees p form
      ((Form.logical isAnd left right).waiting f.state f.index) := by
  unfold Move.ofLogical
  split
  case isTrue h₀ => rw [h₀]; exact .inl rfl
  case isFalse h₀ =>
    obtain h₁ : f.state = 1 := by omega
    rw [h₁]
    exact .inl rfl

theorem ofTernary (cond yes no : Instr) (hs : f.state < 3) :
    (Move.ofTernary cond yes no f).Agrees p form
      ((Form.ternary cond yes no).waiting f.state f.index) := by
  unfold Move.ofTernary
  split
  case h_1 h₀ => rw [h₀]; exact .inl rfl
  case h_2 h₁ => rw [h₁]; exact .inl rfl
  case h_3 h₀ h₁ =>
    obtain h₂ : f.state = 2 := by grind
    rw [h₂]
    exact .inl rfl

theorem ofCall (span : Span) (callee : Callee) (args : List Instr) (ret : Ty) (hs : f.state < 3) :
    (Move.ofCall p span callee args ret f).Agrees p (.call callee args ret)
      ((Form.call callee args ret).waiting f.state f.index) := by
  unfold Move.ofCall
  split
  case isTrue h₀ => rw [h₀]; exact collect ..
  case isFalse h₀ =>
    have h₁₂ : f.state = 1 ∨ f.state = 2 := by omega
    cases callee with
    | native id =>
      dsimp only
      split
      case h_1 => exact faultAt _ _
      case h_2 => rcases h₁₂ with h₁ | h₂ <;> simp [*, Agrees, Form.waiting]
    | user id =>
      dsimp only
      split
      case h_1 => exact faultAt _ _
      case h_2 g hg =>
        split
        case isTrue h₁ =>
          rw [h₁]
          exact ⟨rfl, id, args, ret, rfl, hg⟩
        case isFalse h₁ =>
          obtain h₂ : f.state = 2 := by omega
          rw [h₂]
          exact .inr ⟨id, g, rfl, hg, rfl⟩

end Agrees
end Move

theorem Instr.move_agrees (p : Program) (i : Instr) {f : Frame Variable}
    (hs : f.state < i.form.states) (opened : (i.form.isScope && !f.scope) = false) :
    (i.move p f).Agrees p i.form (i.waiting f.state f.index) := by
  unfold move waiting
  split
  case isTrue h => simp [opened] at h
  case isFalse =>
    have zero {n : Nat} (hn : f.state < n) (one : n = 1) : f.state = 0 := by omega
    revert hs
    cases hf : i.form with
    | block => exact fun hs => .ofBlock _ hs
    | declare => exact fun hs => .ofDeclare _ _ _ _ _ _ hs
    | branch => exact fun hs => .ofBranch _ _ _ hs
    | whileLoop => exact fun hs => .ofWhile _ _ _ _ hs
    | doWhile => exact fun hs => .ofDoWhile _ _ _ _ hs
    | forLoop => exact fun hs => .ofFor _ _ _ _ _ _ hs
    | switch => exact fun hs => .ofSwitch _ _ _ _ _ hs
    | tryCatch => exact fun hs => .ofTry _ _ hs
    | store => exact fun hs => .ofStore _ _ _ _ _ hs
    | binary => exact fun hs => .ofBinary _ _ _ _ _ hs
    | logical => exact fun hs => .ofLogical _ _ _ _ hs
    | ternary => exact fun hs => .ofTernary _ _ _ hs
    | call => exact fun hs => .ofCall _ _ _ _ hs
    | ret value =>
      intro hs
      rw [zero hs rfl]
      cases value with
      | none => exact .finish _
      | some value => exact .inl rfl
    | declList items => intro hs; rw [zero hs rfl]; exact .sequence ..
    | load place => intro hs; rw [zero hs rfl]; exact .collect ..
    | step place => intro hs; rw [zero hs rfl]; exact .collect ..
    | list ty elements => intro hs; rw [zero hs rfl]; exact .collect ..
    | throw value => intro hs; rw [zero hs rfl]; exact .inl rfl
    | unary op operand => intro hs; rw [zero hs rfl]; exact .inl rfl
    | convert target operand => intro hs; rw [zero hs rfl]; exact .inl rfl
    | _ => exact fun _ => .finish _

theorem Instr.agrees_of_move {p : Program} {i : Instr} {f : Frame Variable} {move : Move}
    (hs : f.state < i.form.states) (h : i.move p f = move) (acts : ∀ action, move ≠ .act action) :
    move.Agrees p i.form (i.waiting f.state f.index) := by
  subst h
  exact i.move_agrees p hs (opened_of_move acts)

theorem Instr.waiting_congr {f g : Frame Variable} (i : Instr) (same : f.bare = g.bare) :
    i.waiting f.state f.index = i.waiting g.state g.index := by
  change i.waiting f.bare.state f.bare.index = i.waiting g.bare.state g.bare.index
  rw [same]

end Tickwise
