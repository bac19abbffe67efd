import Tickwise.Proofs.Compile.Emission
import Tickwise.Proofs.Compile.Successes
import Tickwise.Proofs.Machine.Constants
import Tickwise.Proofs.Typing.Soundness
set_option autoImplicit false

/-!
# Constants that the compiler reports

Whatever constant the compiler reports for an expression is what the instruction that it makes of the expression folds
to. An operand is folded before it is converted, which makes no difference to the operator.
-/
namespace Tickwise

open Compile Compiler

namespace Heap

variable {h : Heap} {op : BinaryOp} {a a' b b' c : Variable}

theorem floats_of_binary (folds : h.binary op a b .float = .ok c) :
    (∃ x, a.toFloat = .ok x) ∧ ∃ y, b.toFloat = .ok y := by
  cases ha : a.toFloat <;> cases hb : b.toFloat <;> simp_all [binary, bind, Except.bind]

theorem binary_float_congr (ha : a'.toFloat = a.toFloat) (hb : b'.toFloat = b.toFloat) :
    h.binary op a' b' .float = h.binary op a b .float := by
  simp only [binary, ha, hb]

theorem convert_float {x : Binary32} (float : a.toFloat = .ok x) : h.convert a .float = .ok (Slot.ofFloat x) := by
  simp only [convert, assign, convertValue, Slot.fresh, Slot.temp, float]
  rfl

end Heap

namespace Compile

def Operand.Sound (e : Operand) : Prop := ∀ c, e.constant = some c → e.instr.Folds c

def FoldsAs (target : Ty) (c : Variable) (i : Instr) : Prop :=
  ∃ a, i.Folds a ∧ if target = .float then a.toFloat = c.toFloat else a = c

theorem FoldsAs.of_folds {i : Instr} {c : Variable} (h : i.Folds c) (target : Ty) : FoldsAs target c i :=
  ⟨c, h, by split <;> rfl⟩

theorem folds_of_foldBinary? {op : BinaryOp} {ty : Ty} {i l r : Instr} {left right : Option Variable} {c : Variable}
    (form : i.form = .binary op ty l r) (folds : foldBinary? op ty left right = some c)
    (hl : ∀ a, left = some a → (ty = .float → ∃ x, a.toFloat = .ok x) → FoldsAs ty a l)
    (hr : ∀ b, right = some b → (ty = .float → ∃ x, b.toFloat = .ok x) → FoldsAs ty b r) : i.Folds c := by
  unfold foldBinary? at folds
  split at folds
  case h_2 => cases folds
  case h_1 a b =>
    have folds : Heap.empty.binary op a b ty = .ok c := by
      cases computed : Heap.empty.binary op a b ty <;> simp_all [Except.toOption]
    have floats (float : ty = .float) := Heap.floats_of_binary (float ▸ folds)
    obtain ⟨a', ha, sameL⟩ := hl a rfl fun float => (floats float).1
    obtain ⟨b', hb, sameR⟩ := hr b rfl fun float => (floats float).2
    refine .binary form ha hb ?_
    by_cases float : ty = .float
    · rw [if_pos float] at sameL sameR
      subst float
      rw [Heap.binary_float_congr sameL sameR, folds]
    · rw [if_neg float] at sameL sameR
      rw [sameL, sameR, folds]

theorem folds_of_foldLogical? {isAnd : Bool} {i l r : Instr} {left right : Option Variable} {c : Variable}
    (form : i.form = .logical isAnd l r) (folds : foldLogical? isAnd left right = some c)
    (hl : ∀ a, left = some a → l.Folds a) (hr : ∀ b, right = some b → r.Folds b) : i.Folds c := by
  unfold foldLogical? at folds
  split at folds
  case h_2 => cases folds
  case h_1 x y decides rest =>
    cases folds
    obtain ⟨a, first, decides⟩ := Option.map_eq_some_iff.1 decides
    obtain ⟨b, second, rest⟩ := Option.map_eq_some_iff.1 rest
    exact .logical form (hl a first) (hr b second) decides rest

theorem folds_of_foldUnary? {op : UnaryOp} {i e : Instr} {operand : Option Variable} {c : Variable}
    (form : i.form = .unary op e) (folds : foldUnary? op operand = some c) (he : ∀ a, operand = some a → e.Folds a) :
    i.Folds c := by
  obtain ⟨a, rfl, folds⟩ := Option.bind_eq_some_iff.1 folds
  refine .unary form (he a rfl) ?_
  cases computed : a.unary op <;> simp_all [Except.toOption]

end Compile

namespace Emits

variable {env : Environment} {bs : List Breakable} {lv : Level} {e left right : Operand} {span : Span}

theorem form (span : Span) (form : Form Instr) : Emits env bs (Compiler.node span form) (·.form = form) :=
  ⟨fun _ _ hc => by cases hc; rfl⟩

/-- The routines of a level report no constants but those that the instructions fold to. -/
structure Sound (env : Environment) (lv : Level) : Prop where
  expression : ∀ {bs}, Emits env bs lv.expression Operand.Sound
  ternary : ∀ {bs}, Emits env bs lv.ternary Operand.Sound
  binary : ∀ {bs} floor, Emits env bs (lv.binary floor) Operand.Sound
  unary : ∀ {bs}, Emits env bs lv.unary Operand.Sound
  primary : ∀ {bs}, Emits env bs lv.primary Operand.Sound

theorem varying {c : Compiler Instr} {ty : Ty} : Emits env bs (do return ⟨← c, ty, none⟩) Operand.Sound :=
  .next fun _ => .pure nofun

theorem widened (he : e.Sound) (target : Ty) : Emits env bs (Compiler.widen e target) fun i =>
    ∀ c, e.constant = some c → (target = .float → ∃ x, c.toFloat = .ok x) → FoldsAs target c i := by
  refine .ite (fun float => ⟨fun _ _ hc c constant floats => ?_⟩) fun _ =>
    .pure fun c constant _ => .of_folds (he c constant) target
  cases hc
  obtain ⟨x, hx⟩ := floats float.1
  refine ⟨Slot.ofFloat x, .convert rfl (he c constant) (Heap.convert_float hx), ?_⟩
  rw [if_pos float.1, hx]
  rfl

theorem connected (connective : Connective) (hl : left.Sound) (hr : right.Sound) :
    Emits env bs (Compiler.connect span connective left right) Operand.Sound := by
  cases connective with
  | binary op =>
    refine .next fun ty => (widened hl ty).bind fun l hl => (widened hr ty).bind fun r hr => ?_
    exact (form span _).bind fun i form => .pure fun c folds => folds_of_foldBinary? form folds hl hr
  | logical isAnd =>
    refine .ite (fun _ => .fail ..) fun _ => .ite (fun _ => .fail ..) fun _ => ?_
    exact (form span _).bind fun i form => .pure fun c folds => folds_of_foldLogical? form folds hl hr

theorem assigned {op : Operator} {place : Place Instr} :
    Emits env bs (Compiler.assignment op span place e) Operand.Sound := by
  refine .next fun _ => ?_
  split
  · exact .next fun _ => .next fun _ => varying
  · split
    · exact .failBind ..
    · exact .next fun _ => .ite (fun _ => .next fun _ => varying) fun _ => .failBind ..

theorem accessed (token : Token) {place : Place Instr} :
    Emits env bs (Compiler.access lv token e place) Operand.Sound := by
  refine .next fun _ => ?_
  split
  · exact .next fun _ => varying
  · exact .next fun _ => varying

theorem stepped {up before : Bool} : Emits env bs (Compiler.stepPlace span e up before) Operand.Sound :=
  .next fun _ => .ite (fun _ => varying) fun _ => .fail ..

theorem spelled (span : Span) {v : Variable} (scalar : v.value.scalarText?.isSome = true) :
    Emits env bs (Compiler.literal span v) Operand.Sound :=
  (form span _).bind fun _ form => .pure fun _ same => Option.some.inj same ▸ .literal form scalar

theorem named (name : Token) : Emits env bs (Compiler.nameUse name) Operand.Sound := by
  refine .next fun s => ?_
  split
  · exact varying
  · refine .next fun ctx => ?_
    split
    · exact spelled _ rfl
    · exact .fail ..

theorem created : Emits env bs (Compiler.newObject span) Operand.Sound := by
  refine .next fun name => .next fun ctx => ?_
  split
  · exact .fail ..
  · refine .next fun opening? => ?_
    split
    · exact .next fun _ => varying
    · exact varying

namespace Sound

variable (hlv : Sound env lv)
include hlv

theorem expressionBody : Emits env bs (Compiler.expressionBody lv) Operand.Sound := by
  refine hlv.ternary.bind fun target sound => .next fun token? => ?_
  split
  · exact .ite (fun _ => .next fun _ => .next fun _ => .next fun _ => assigned) fun _ => .pure sound
  · exact .pure sound

theorem ternaryBody : Emits env bs (Compiler.ternaryBody lv) Operand.Sound := by
  refine (hlv.binary 0).bind fun cond sound => .next fun question? => ?_
  split
  · exact .pure sound
  · refine .ite (fun _ => .fail ..) fun _ => .next fun _ => .next fun _ => .next fun _ => .next fun _ => ?_
    split
    · exact .fail ..
    · exact .next fun _ => .next fun _ => varying

theorem binaryBody (floor : Nat) : Emits env bs (Compiler.binaryBody lv floor) Operand.Sound := by
  refine hlv.unary.bind fun first sound => .loop (fun state => state.1.Sound) sound fun (left, _) hl => .next fun b? => ?_
  split
  · exact .pure hl
  · refine .ite (fun _ => .fail ..) fun _ => (hlv.binary _).bind fun right hr => ?_
    exact (connected _ hl hr).bind fun _ sound => .pure sound

theorem accesses : Emits env bs (Compiler.accesses lv) Operand.Sound := by
  refine hlv.primary.bind fun first sound => .loop Operand.Sound sound fun e he => .next fun token? => ?_
  split
  · exact .pure he
  · split
    · refine .ite (fun _ => ?_) fun _ => .ite (fun _ => .next fun _ => ?_) fun _ => .pure he
      · exact (accessed _).bind fun _ sound => .pure sound
      · exact stepped.bind fun _ sound => .pure sound
    · exact .ite (fun _ => .fail ..) fun _ => .ite (fun _ => .fail ..) fun _ => .pure he

theorem unaryOperation (op : UnaryOp) : Emits env bs (Compiler.unaryOperation lv span op) Operand.Sound := by
  refine .next fun _ => hlv.unary.bind fun operand sound => .ite (fun _ => ?_) fun _ => .fail ..
  exact (form span _).bind fun _ form => .pure fun _ folds => folds_of_foldUnary? form folds sound

theorem unaryBody : Emits env bs (Compiler.unaryBody lv) Operand.Sound := by
  refine .next fun token? => ?_
  split
  · exact hlv.unaryOperation _
  · exact hlv.unaryOperation _
  · exact hlv.unaryOperation _
  · exact .next fun _ => hlv.unary.bind fun _ sound => .ite (fun _ => .pure sound) fun _ => .fail ..
  · exact .next fun _ => .next fun _ => stepped
  · exact .next fun _ => .next fun _ => stepped
  · exact hlv.accesses

theorem primaryBody : Emits env bs (Compiler.primaryBody lv) Operand.Sound := by
  refine .next fun token? => ?_
  cases token? with
  | none => exact .next fun _ => .fail ..
  | some token =>
    dsimp only
    split
    · split
      · exact spelled _ rfl
      · exact .fail ..
    · split
      · exact spelled _ rfl
      · exact .fail ..
    · exact spelled _ rfl
    · exact spelled _ rfl
    · exact spelled _ rfl
    · exact varying
    · exact created
    · exact hlv.expression.bind fun _ sound => .next fun _ => .pure sound
    · refine .next fun _ => .ite (fun _ => .next fun _ => .next fun closing? => ?_) fun _ => named token
      split
      · exact .next fun _ => .next fun _ => .next fun _ => varying
      · exact .next fun _ => .next fun _ => .next fun _ => .next fun _ => .next fun _ => varying
    · exact .fail ..

end Sound

theorem sound_ofRoom (room : Nat) : Sound env (Level.ofRoom room) := by
  induction room with
  | zero =>
    have tooDeep {bs : List Breakable} {P : Operand → Prop} :
        Emits env bs (do Compiler.fail .tooDeep (← here)) P := .next fun _ => .fail ..
    exact ⟨tooDeep, tooDeep, fun _ => tooDeep, tooDeep, tooDeep⟩
  | succ room ih =>
    exact ⟨inFrame false ih.expressionBody, inFrame false ih.ternaryBody, fun floor => inFrame false (ih.binaryBody floor),
      inFrame false ih.unaryBody, inFrame false ih.primaryBody⟩

end Emits

/-- The compiler reports a constant for the instruction that it makes of an expression. -/
def Compiler.ReportsConstant (i : Instr) (c : Variable) : Prop :=
  ∃ room routine ctx s ty, (Level.ofRoom room).Reads routine ∧ (routine ctx s).1 = some ⟨i, ty, some c⟩

theorem Compiler.ReportsConstant.folds {i : Instr} {c : Variable} (h : Compiler.ReportsConstant i c) : i.Folds c := by
  obtain ⟨room, routine, ctx, s, ty, reads, answer⟩ := h
  have sound : Emits.Sound ctx.env (Level.ofRoom room) := Emits.sound_ofRoom room
  have emits : Emits ctx.env ctx.breakables routine Operand.Sound := by
    cases reads with
    | expression => exact sound.expression
    | ternary => exact sound.ternary
    | binary floor => exact sound.binary floor
    | unary => exact sound.unary
    | primary => exact sound.primary
  exact emits.answers rfl rfl (Prod.ext answer rfl) c rfl

/-!
## Labels of a switch
-/

namespace Compiler

variable {lv : Level} {ctx : Context} {s s' : State}

/-- The labels in the body of a switch, up to and with its closing brace: how many of its statements are in front of
each, where `n` are already, and the expression behind `case`; there is none behind `default`. -/
inductive Labels (lv : Level) (ctx : Context) : (n : Nat) → State → List (Nat × Option Operand) → State → Prop
  | close {n : Nat} {s : State} (brace : s.rest.head?.any (·.isOp .rightBrace) = true) : Labels lv ctx n s [] s.behind
  | value {n : Nat} {s s₁ s' : State} {e : Operand} {labels : List (Nat × Option Operand)}
      (word : s.rest.head?.any (·.isWord .caseWord) = true) (label : value lv ctx s.behind = (some e, s₁))
      (colon : s₁.rest.head?.any (·.isOp .colon) = true) (more : Labels lv ctx n s₁.behind labels s') :
      Labels lv ctx n s ((n, some e) :: labels) s'
  | default {n : Nat} {s s' : State} {labels : List (Nat × Option Operand)}
      (word : s.rest.head?.any (·.isWord .defaultWord) = true)
      (colon : s.behind.rest.head?.any (·.isOp .colon) = true) (more : Labels lv ctx n s.behind.behind labels s') :
      Labels lv ctx n s ((n, none) :: labels) s'
  | statement {n : Nat} {s s₁ s' : State} {i : Instr} {labels : List (Nat × Option Operand)}
      (read : lv.statement ctx s = (some i, s₁)) (more : Labels lv ctx (n + 1) s₁ labels s') : Labels lv ctx n s labels s'

/-- A case of a switch has the constant of its label as value. -/
inductive Labelled : Case → Nat × Option Operand → Prop
  | value {n : Nat} {e : Operand} {k : Variable} {v : Int32} (constant : e.constant = some k) (known : k.toInt = .ok v) :
      Labelled ⟨some v, n⟩ (n, some e)
  | default {n : Nat} : Labelled ⟨none, n⟩ (n, none)

theorem constant_of_caseValue {v : Int32} (h : caseValue lv ctx s = (some v, s')) :
    ∃ e k, value lv ctx s = (some e, s') ∧ e.constant = some k ∧ k.toInt = .ok v := by
  obtain ⟨e, s₁, read, h⟩ := some_of_bind h
  split at h
  case isTrue => cases h
  case isFalse =>
    rcases known : e.constant.map Slot.toInt with _ | _ | i <;> rw [known] at h <;> cases h
    obtain ⟨k, constant, known⟩ := Option.map_eq_some_iff.1 known
    exact ⟨e, k, read, constant, known⟩

/-- Cases of different values are continued by the labels from one state to another. -/
def Labelling (lv : Level) (ctx : Context) (cases : List Case) (n : Nat) (s : State) (all : List Case) (s' : State) :
    Prop :=
  (cases.map Case.value).Nodup → ∃ labels more, all = cases ++ more ∧ Labels lv ctx n s labels s' ∧
    List.Forall₂ Labelled more labels ∧ (all.map Case.value).Nodup

theorem Labelling.label {cases all : List Case} {v : Option Int32} {n : Nat} {s₁ : State} {e : Option Operand}
    (h : Labelling lv ctx (cases ++ [⟨v, n⟩]) n s₁ all s') (new : ¬ cases.any (·.value = v) = true)
    (labelled : Labelled ⟨v, n⟩ (n, e))
    (read : ∀ {labels}, Labels lv ctx n s₁ labels s' → Labels lv ctx n s ((n, e) :: labels) s') :
    Labelling lv ctx cases n s all s' := by
  intro different
  have absent : v ∉ cases.map Case.value := by simpa using new
  have appended : ((cases ++ [Case.mk v n]).map Case.value).Nodup := by
    rw [List.map_append]
    exact different.append (List.nodup_singleton _) (List.disjoint_singleton.2 absent)
  obtain ⟨labels, more, same, rest, more', different⟩ := h appended
  exact ⟨_, ⟨v, n⟩ :: more, by rw [same, List.append_assoc]; rfl, read rest, .cons labelled more', different⟩

theorem labels_of_switchBody {cases : List Case} {body : List Instr}
    (h : switchBody lv ctx s = (some (cases, body), s')) :
    ∃ labels, Labels lv ctx 0 s labels s' ∧ List.Forall₂ Labelled cases labels ∧ (cases.map Case.value).Nodup := by
  have run : Labelling lv ctx [] 0 s cases s' := some_of_loop
    (fun (state : List Case × List Instr) s (answer : List Case × List Instr) s' =>
      Labelling lv ctx state.1 state.2.length s answer.1 s') ?turn h
  case turn =>
    rintro ⟨cases, latestFirst⟩ s r s' h
    obtain ⟨_, _, brace, h₁⟩ := some_of_bind h
    obtain ⟨_, rfl, next, rfl⟩ | ⟨rfl, rfl⟩ := some_of_eatIf brace
    · cases h₁
      exact fun different => ⟨[], [], (List.append_nil _).symm, .close next, .nil, different⟩
    obtain ⟨_, _, word, h₂⟩ := some_of_bind h₁
    obtain ⟨_, rfl, next, rfl⟩ | ⟨rfl, rfl⟩ := some_of_eatIf word
    · obtain ⟨v, s₁, read, h₃⟩ := some_of_bind h₂
      obtain ⟨e, k, label, constant, known⟩ := constant_of_caseValue read
      split at h₃
      case isTrue => cases h₃
      case isFalse new =>
        obtain ⟨_, _, expected, h₄⟩ := some_of_bind h₃
        obtain ⟨colon, rfl⟩ := some_of_expect expected
        cases h₄
        exact fun _ _ more => more.label new (.value constant known) (.value next label colon)
    obtain ⟨_, _, word, h₃⟩ := some_of_bind h₂
    obtain ⟨_, rfl, next, rfl⟩ | ⟨rfl, rfl⟩ := some_of_eatIf word
    · dsimp only at h₃
      split at h₃
      case isTrue => cases h₃
      case isFalse new =>
        obtain ⟨_, _, expected, h₄⟩ := some_of_bind h₃
        obtain ⟨colon, rfl⟩ := some_of_expect expected
        cases h₄
        exact fun _ _ more => more.label new .default (.default next colon)
    obtain ⟨_, _, peeked, h₄⟩ := some_of_bind h₃
    cases peeked
    split at h₄
    case isTrue =>
      obtain ⟨_, _, _, failed⟩ := some_of_bind h₄
      cases failed
    case isFalse =>
      obtain ⟨i, s₁, read, h₅⟩ := some_of_bind h₄
      cases h₅
      intro answer s' more different
      obtain ⟨labels, more, same, rest, labelled, different⟩ := more different
      exact ⟨labels, more, same, .statement read rest, labelled, different⟩
  obtain ⟨labels, more, same, read, labelled, different⟩ := run List.nodup_nil
  cases same
  exact ⟨labels, read, labelled, different⟩

theorem Labels.sound {n : Nat} {labels : List (Nat × Option Operand)} (h : Labels lv ctx n s labels s')
    (hlv : Emits.Sound ctx.env lv) : ∀ start e, (start, some e) ∈ labels → e.Sound := by
  induction h with
  | close => nofun
  | @value _ s₀ _ _ e _ _ label _ _ ih =>
    have read : Emits ctx.env ctx.breakables (Compiler.value lv) Operand.Sound :=
      hlv.expression.bind fun _ sound => .next fun _ => .pure sound
    intro start e' mem
    rcases List.mem_cons.1 mem with same | mem
    · cases same
      exact read.answers rfl rfl label
    · exact ih start e' mem
  | default _ _ _ ih =>
    intro start e mem
    rcases List.mem_cons.1 mem with same | mem
    · cases same
    · exact ih start e mem
  | statement _ _ ih => exact ih

/-- From behind the word `switch` on there are a value in parentheses and a body with these labels. -/
def Switches (lv : Level) (label : Option String) (ctx : Context) (s : State) (value : Instr)
    (labels : List (Nat × Option Operand)) : Prop :=
  ∃ s₁ s', integer lv .typeMismatch ctx s.behind = (some value, s₁) ∧
    Labels lv { ctx with breakables := ⟨label, false⟩ :: ctx.breakables } 0
      { s₁.behind.behind with scopes := s₁.scopes.push true } labels s'

theorem switches_of_switchStatement {label : Option String} {span : Span} {i : Instr}
    (h : switchStatement lv label span ctx s = (some i, s')) :
    ∃ value cases body labels, i.form = .switch label value cases body ∧ Switches lv label ctx s value labels ∧
      List.Forall₂ Labelled cases labels ∧ (cases.map Case.value).Nodup := by
  obtain ⟨_, _, opening, h₁⟩ := some_of_bind h
  obtain ⟨_, rfl⟩ := some_of_expect opening
  obtain ⟨value, s₁, read, h₂⟩ := some_of_bind h₁
  obtain ⟨_, _, closing, h₃⟩ := some_of_bind h₂
  obtain ⟨_, rfl⟩ := some_of_expect closing
  obtain ⟨_, _, brace, h₄⟩ := some_of_bind h₃
  obtain ⟨_, rfl⟩ := some_of_expect brace
  obtain ⟨⟨cases, body⟩, s₂, framed, h₅⟩ := some_of_bind h₄
  cases h₅
  obtain ⟨s', inner, _⟩ := some_of_inFrame framed
  obtain ⟨labels, readLabels, labelled, different⟩ := labels_of_switchBody inner
  exact ⟨value, cases, body, labels, rfl, ⟨s₁, s', read, readLabels⟩, labelled, different⟩

end Compiler

end Tickwise
