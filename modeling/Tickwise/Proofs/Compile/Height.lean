import Tickwise.Proofs.Compile.Emission
set_option autoImplicit false

/-!
# The height of expressions

The limit on nesting counts the routines that are at work, and the operators of one chain by themselves. So an
expression is within the limit when the operators of a chain count as one level of it. How high it is by itself
depends on the chains that are operands of one another.
-/
namespace Tickwise

open Compile Compiler

def Form.operator? {ι : Type} : Form ι → Option (ι × ι)
  | .binary _ _ left right | .logical _ left right => some (left, right)
  | _ => none

namespace Instr

/-- The tree of an instruction is at most so many levels high. -/
def Fits : (levels : Nat) → Instr → Prop
  | 0, _ => False
  | levels + 1, i => ∀ c ∈ i.children, c.Fits levels

instance decidableFits : (levels : Nat) → (i : Instr) → Decidable (i.Fits levels)
  | 0, _ => .isFalse False.elim
  | levels + 1, i =>
    have := decidableFits levels
    inferInstanceAs (Decidable (∀ c ∈ i.children, c.Fits levels))

/-- A chain of operators, each the left operand of the next, over operands that satisfy `P`. On its way up a chain is
converted at most once. A single instruction is a chain as well. -/
inductive Chain (P : Instr → Prop) : (converted : Bool) → (length : Nat) → Instr → Prop
  | single {i : Instr} (parts : ∀ c ∈ i.children, P c) : Chain P false 1 i
  | longer {converted : Bool} {length : Nat} {i left right : Instr} (operator : i.form.operator? = some (left, right))
      (goesOn : left.form.operator?.isSome = true) (chain : Chain P converted length left) (last : P right) :
      Chain P converted (length + 1) i
  | widened {length : Nat} {i left right first : Instr} {target : Ty} (operator : i.form.operator? = some (left, right))
      (converts : left.form = .convert target first) (goesOn : first.form.operator?.isSome = true)
      (chain : Chain P false length first) (last : P right) : Chain P true (length + 1) i

/-- The tree is at most so many levels high when a chain counts as one of them; and no chain is longer than there are
levels in it. -/
def Nests : (levels : Nat) → Instr → Prop
  | 0, _ => False
  | levels + 1, i => ∃ converted, ∃ length ≤ levels + 1, i.Chain (Nests levels) converted length

def unconverted (i : Instr) : Instr :=
  match i.form with
  | .convert _ e => e
  | _ => i

/-- No operator in the tree is the left operand of another. -/
def Unchained (i : Instr) : Prop :=
  ∀ j ∈ i.all, ∀ left right, j.form.operator? = some (left, right) → left.unconverted.form.operator? = none

end Instr

/-- How high a tree can get in so many levels of chains. -/
def Compile.reach : (levels : Nat) → Nat
  | 0 => 0
  | levels + 1 => reach levels + levels + 2

example : reach maxNesting = 33152 := by decide +kernel

theorem Form.children_of_operator? {ι : Type} {form : Form ι} {left right : ι} (h : form.operator? = some (left, right)) :
    form.children = [left, right] := by
  cases form <;> simp_all [Form.operator?, Form.children]

namespace Instr

variable {P Q : Instr → Prop} {m n length : Nat} {converted : Bool} {i c : Instr}

theorem Fits.mono (h : i.Fits m) (le : m ≤ n) : i.Fits n := by
  induction m generalizing n i with
  | zero => exact h.elim
  | succ m ih =>
    cases n with
    | zero => omega
    | succ n => exact fun c hc => ih (h c hc) (Nat.le_of_succ_le_succ le)

theorem Chain.imp (h : i.Chain P converted length) (weaker : ∀ c, P c → Q c) : i.Chain Q converted length := by
  induction h with
  | single parts => exact .single fun c hc => weaker c (parts c hc)
  | longer operator goesOn _ last ih => exact .longer operator goesOn ih (weaker _ last)
  | widened operator converts goesOn _ last ih => exact .widened operator converts goesOn ih (weaker _ last)

theorem Chain.fits (h : i.Chain P converted length) (operands : ∀ c, P c → c.Fits n) :
    i.Fits (n + length + converted.toNat) := by
  have pair {i left right : Instr} {levels : Nat} (operator : i.form.operator? = some (left, right))
      (hl : left.Fits levels) (hr : right.Fits levels) : i.Fits (levels + 1) := by
    intro c hc
    rw [children, Form.children_of_operator? operator] at hc
    simp only [List.mem_cons, List.not_mem_nil, or_false] at hc
    obtain rfl | rfl := hc
    · exact hl
    · exact hr
  induction h with
  | single parts => exact fun c hc => operands c (parts c hc)
  | longer operator _ _ last ih =>
    exact (pair operator ih ((operands _ last).mono (by omega))).mono (by omega)
  | @widened length _ left _ _ _ operator converts _ _ last ih =>
    have high : left.Fits (n + length + 1) := by
      intro c hc
      rw [children, converts] at hc
      exact List.mem_singleton.1 hc ▸ ih
    exact pair operator high ((operands _ last).mono (by omega))

theorem Nests.fits (h : i.Nests n) : i.Fits (reach n) := by
  induction n generalizing i with
  | zero => exact h.elim
  | succ n ih =>
    obtain ⟨converted, length, short, chain⟩ := h
    refine (chain.fits fun c hc => ih hc).mono ?_
    cases converted <;> simp only [reach, Bool.toNat_true, Bool.toNat_false] <;> omega

theorem Nests.mono (h : i.Nests m) (le : m ≤ n) : i.Nests n := by
  induction m generalizing n i with
  | zero => exact h.elim
  | succ m ih =>
    cases n with
    | zero => omega
    | succ n =>
      obtain ⟨converted, length, short, chain⟩ := h
      exact ⟨converted, length, by omega, chain.imp fun c hc => ih hc (Nat.le_of_succ_le_succ le)⟩

theorem Nests.pos (h : i.Nests n) : 1 ≤ n := by
  cases n with
  | zero => exact h.elim
  | succ n => omega

theorem Nests.single (parts : ∀ c ∈ i.children, c.Nests n) : i.Nests (n + 1) := ⟨false, 1, by omega, .single parts⟩

theorem Nests.part (h : i.Nests n) (plain : i.form.operator? = none) (hc : c ∈ i.children) : c.Nests (n - 1) := by
  cases n with
  | zero => exact h.elim
  | succ n =>
    obtain ⟨converted, length, _, chain⟩ := h
    cases chain with
    | single parts => exact parts c hc
    | longer operator => cases plain.symm.trans operator
    | widened operator => cases plain.symm.trans operator

theorem Nests.child (h : i.Nests n) (hc : c ∈ i.children) :
    c.Nests n ∨ ∃ target first, c.form = .convert target first ∧ first.Nests n := by
  cases n with
  | zero => exact h.elim
  | succ n =>
    have operand {i left right : Instr} (operator : i.form.operator? = some (left, right)) (hc : c ∈ i.children) :
        c = left ∨ c = right := by
      rw [children, Form.children_of_operator? operator] at hc
      simpa using hc
    obtain ⟨converted, length, short, chain⟩ := h
    cases chain with
    | single parts => exact .inl ((parts c hc).mono (by omega))
    | longer operator _ chain last =>
      obtain rfl | rfl := operand operator hc
      · exact .inl ⟨_, _, by omega, chain⟩
      · exact .inl (last.mono (by omega))
    | widened operator converts _ chain last =>
      obtain rfl | rfl := operand operator hc
      · exact .inr ⟨_, _, converts, _, _, by omega, chain⟩
      · exact .inl (last.mono (by omega))

theorem Nests.within (h : i.Nests n) {j : Instr} (hj : j ∈ i.all) : j.Nests (n + 1) := by
  -- What holds of the tree and is kept by each step down to a part.
  let Inside (j : Instr) : Prop := j.Nests n ∨ ∃ target first, j.form = .convert target first ∧ first.Nests n
  have inside : Inside i := .inl h
  clear h
  have down {i c : Instr} (h : Inside i) (hc : c ∈ i.children) : Inside c := by
    obtain h | ⟨_, first, converts, h⟩ := h
    · exact h.child hc
    · rw [children, converts] at hc
      exact .inl (List.mem_singleton.1 hc ▸ h)
  have descend : ∀ {i : Instr}, Inside i → ∀ j ∈ i.all, Inside j := by
    intro i
    induction i using all.induct with
    | case1 i ih =>
      intro h j hj
      rw [all_eq, List.mem_cons, List.mem_flatMap] at hj
      obtain rfl | ⟨c, hc, hj⟩ := hj
      · exact h
      · exact ih ⟨c, hc⟩ (down h hc) j hj
  obtain h | ⟨_, first, converts, h⟩ := descend inside j hj
  · exact h.mono (by omega)
  · refine .single fun c hc => ?_
    rw [children, converts] at hc
    exact List.mem_singleton.1 hc ▸ h

theorem Nests.fits_of_unchained (h : i.Nests n) (unchained : i.Unchained) : i.Fits n := by
  induction n generalizing i with
  | zero => exact h.elim
  | succ n ih =>
    have here : i ∈ i.all := by rw [all_eq]; exact List.mem_cons_self
    obtain ⟨_, _, _, chain⟩ := h
    cases chain with
    | single parts =>
      refine fun c hc => ih (parts c hc) fun j hj => unchained j ?_
      rw [all_eq]
      exact List.mem_cons_of_mem _ (List.mem_flatMap.2 ⟨c, hc, hj⟩)
    | @longer _ _ _ left _ operator goesOn =>
      have alone := unchained i here _ _ operator
      have same : left.unconverted = left := by
        unfold unconverted
        split
        case h_1 converts => rw [converts] at goesOn; cases goesOn
        case h_2 => rfl
      rw [same] at alone
      rw [alone] at goesOn
      cases goesOn
    | @widened _ _ left _ first _ operator converts goesOn =>
      have alone := unchained i here _ _ operator
      have same : left.unconverted = first := by simp [unconverted, converts]
      rw [same] at alone
      rw [alone] at goesOn
      cases goesOn

end Instr

namespace Compile

theorem int_of_operandType? {op : BinaryOp} {left right : Ty} (computes : op.isComparison = false)
    (h : operandType? op left right = some .int) : left = .int ∧ right = .int := by
  have promoted (h : left.promote? right = some .int) : left = .int ∧ right = .int := by
    cases left <;> cases right <;> simp_all [Ty.promote?]
  cases op <;> simp only [operandType?] at h <;> grind [BinaryOp.isComparison]

theorem int_of_branchType? {yes no : Ty} (h : branchType? yes no = some .int) : yes = .int ∧ no = .int := by
  cases yes <;> cases no <;> simp_all [branchType?, Ty.promote?, Ty.accepts] <;> grind

theorem int_of_accepts {src : Ty} (h : Ty.int.accepts src = true) : src = .int := by
  cases src <;> simp_all [Ty.accepts]

/-- The tree of an operand nests so many levels, and one less where it may be converted or stepped. -/
structure Operand.Nests (levels : Nat) (e : Operand) : Prop where
  tree : e.instr.Nests levels
  int : e.ty = .int → e.instr.Nests (levels - 1)
  load : ∀ place, e.instr.form = .load place → e.instr.Nests (levels - 1)

theorem Operand.Nests.mono {m n : Nat} {e : Operand} (h : e.Nests m) (le : m ≤ n) : e.Nests n :=
  ⟨h.tree.mono le, fun ty => (h.int ty).mono (by omega), fun place form => (h.load place form).mono (by omega)⟩

def Widens (e : Operand) (target : Ty) (i : Instr) : Prop :=
  if target = .float ∧ e.ty = .int then i.form = .convert .float e.instr else i = e.instr

theorem Widens.nests {n : Nat} {e : Operand} {target : Ty} {i : Instr} (h : Widens e target i) (he : e.Nests n) :
    i.Nests n := by
  unfold Widens at h
  split at h
  case isTrue converts =>
    have inner := he.int converts.2
    have outer : i.Nests (n - 1 + 1) := .single fun c hc => by
      rw [Instr.children, h] at hc
      exact List.mem_singleton.1 hc ▸ inner
    exact outer.mono (by have := inner.pos; omega)
  case isFalse => exact h ▸ he.tree

/-- What a chain has made of operands that nest `n` levels. -/
inductive Chained (n : Nat) : (operators : Nat) → Operand → Prop
  | first {e : Operand} (h : e.Nests n) : Chained n 0 e
  | more {operators : Nat} {e : Operand} (operator : e.instr.form.operator?.isSome = true)
      (tree : ∃ converted, e.instr.Chain (·.Nests n) converted (operators + 1))
      (int : e.ty = .int → e.instr.Chain (·.Nests (n - 1)) false (operators + 1)) : Chained n (operators + 1) e

namespace Chained

variable {n operators : Nat} {left right e : Operand} {target : Ty} {i l r : Instr}

theorem single (operator : i.form.operator? = some (l, r)) (hl : l.Nests n) (hr : r.Nests n) :
    i.Chain (·.Nests n) false 1 := by
  refine .single fun c hc => ?_
  rw [Instr.children, Form.children_of_operator? operator] at hc
  simp only [List.mem_cons, List.not_mem_nil, or_false] at hc
  obtain rfl | rfl := hc
  · exact hl
  · exact hr

theorem grow (h : Chained n operators left) (hr : right.Nests n) (widensLeft : Widens left target l)
    (widensRight : Widens right target r) (operator : i.form.operator? = some (l, r)) :
    ∃ converted, i.Chain (·.Nests n) converted (operators + 1) := by
  cases h with
  | first h => exact ⟨false, single operator (widensLeft.nests h) (widensRight.nests hr)⟩
  | more goesOn tree int =>
    unfold Widens at widensLeft
    split at widensLeft
    case isTrue converts =>
      exact ⟨true, .widened operator widensLeft goesOn
        ((int converts.2).imp fun c hc => hc.mono (Nat.sub_le n 1)) (widensRight.nests hr)⟩
    case isFalse =>
      obtain ⟨converted, chain⟩ := tree
      exact ⟨converted, .longer operator (widensLeft ▸ goesOn) (widensLeft ▸ chain) (widensRight.nests hr)⟩

theorem grow_int (h : Chained n operators left) (hr : right.Nests n) (leftInt : left.ty = .int)
    (rightInt : right.ty = .int) (operator : i.form.operator? = some (left.instr, right.instr)) :
    i.Chain (·.Nests (n - 1)) false (operators + 1) := by
  cases h with
  | first h => exact single operator (h.int leftInt) (hr.int rightInt)
  | more goesOn tree int => exact .longer operator goesOn (int leftInt) (hr.int rightInt)

theorem nests (h : Chained n operators e) (room : operators ≤ n) : e.Nests (n + 1) := by
  cases h with
  | first h => exact h.mono (Nat.le_succ n)
  | more operator tree int =>
    obtain ⟨converted, chain⟩ := tree
    refine ⟨⟨_, _, by omega, chain⟩, fun ty => ?_, fun place form => ?_⟩
    · obtain ⟨n, rfl⟩ : ∃ m, n = m + 1 := ⟨n - 1, by omega⟩
      exact ⟨_, _, by omega, int ty⟩
    · rw [form] at operator
      cases operator

end Chained
end Compile

namespace Level

/-- The routines of a level answer trees that nest in its room. An expression in parentheses and a condition take
some room without a level of their own. -/
structure Reaches (lv : Level) : Prop where
  expression : ∀ {env bs}, Emits env bs lv.expression (·.Nests lv.room)
  ternary : ∀ {env bs}, Emits env bs lv.ternary (·.Nests (lv.room + 1))
  binary : ∀ {env bs} floor, Emits env bs (lv.binary floor) (·.Nests lv.room)
  unary : ∀ {env bs}, Emits env bs lv.unary (·.Nests lv.room)
  primary : ∀ {env bs}, Emits env bs lv.primary (·.Nests (lv.room + 1))

namespace Reaches

variable {env : Environment} {bs : List Breakable} {lv : Level} {e : Operand} {place : Place Instr} {span : Span}
  {n : Nat}

/-- The index expressions of a place nest so many levels. -/
def Leads (n : Nat) (place : Place Instr) : Prop := ∀ i ∈ place.indices, i.Nests n

theorem imp {α : Type} {c : Compiler α} {P Q : α → Prop} (h : Emits env bs c P) (weaker : ∀ a, P a → Q a) :
    Emits env bs c Q :=
  ⟨fun same within hc => weaker _ (h.answers same within hc)⟩

theorem operand {form : Form Instr} {ty : Ty} {constant : Option Variable} (parts : ∀ c ∈ form.children, c.Nests n)
    (spare : ty = .int ∨ (∃ place, form = .load place) → 1 ≤ n ∧ ∀ c ∈ form.children, c.Nests (n - 1)) :
    Emits env bs (do return ⟨← Compiler.node span form, ty, constant⟩ : Compiler Operand) (·.Nests (n + 1)) := by
  refine .bind (P := fun i => i.form = form) ⟨fun _ _ hc => by cases hc; rfl⟩ fun i made => .pure ?_
  subst made
  have spared (h : ty = .int ∨ ∃ place, i.form = .load place) : i.Nests n := by
    obtain ⟨pos, inner⟩ := spare h
    exact (Instr.Nests.single inner).mono (by omega)
  exact ⟨.single parts, fun int => spared (.inl int), fun place load => spared (.inr ⟨place, load⟩)⟩

theorem operandWithin {form : Form Instr} {ty : Ty} {constant : Option Variable}
    (parts : ∀ c ∈ form.children, c.Nests n) :
    Emits env bs (do return ⟨← Compiler.node span form, ty, constant⟩ : Compiler Operand) (·.Nests (n + 2)) :=
  operand (fun c hc => (parts c hc).mono (by omega)) fun _ => ⟨by omega, parts⟩

theorem widens (e : Operand) (target : Ty) : Emits env bs (Compiler.widen e target) (Widens e target) := by
  refine .ite (fun converts => ⟨fun _ _ hc => ?_⟩) fun keeps => .pure ?_
  · cases hc
    unfold Widens
    rw [if_pos converts]
    rfl
  · unfold Widens
    rw [if_neg keeps]

theorem widen (h : e.Nests n) (target : Ty) : Emits env bs (Compiler.widen e target) (·.Nests n) :=
  imp (widens e target) fun _ made => made.nests h

theorem coerce (h : e.Nests n) (target : Ty) (span : Span) :
    Emits env bs (Compiler.coerce e target span) (·.Nests n) :=
  .next fun _ => .ite (fun _ => widen h target) fun _ => .fail _ _

theorem coerce_int (h : e.Nests n) (span : Span) : Emits env bs (Compiler.coerce e .int span) (·.Nests (n - 1)) := by
  refine .next fun _ => .ite (fun accepts => ?_) fun _ => .fail _ _
  exact .ite (fun converts => nomatch converts.1) fun _ => .pure (h.int (int_of_accepts accepts))

theorem value (hlv : lv.Reaches) : Emits env bs (Compiler.value lv) (·.Nests lv.room) :=
  hlv.expression.bind fun _ made => .next fun _ => .pure made

theorem condition (hlv : lv.Reaches) : Emits env bs (Compiler.condition lv) (·.Nests lv.room) :=
  (value hlv).bind fun _ made => .ite (fun _ => .pure made.tree) fun _ => .fail _ _

theorem integer (hlv : lv.Reaches) (cause : CompileError.Cause) :
    Emits env bs (Compiler.integer lv cause) (·.Nests (lv.room - 1)) :=
  (value hlv).bind fun _ made => .ite (fun int => .pure (made.int int)) fun _ => .fail _ _

theorem leads_of_load (h : e.Nests n) (form : e.instr.form = .load place) : Leads (n - 2) place := by
  intro i hi
  refine (h.load place form).part (by rw [form]; rfl) ?_
  rw [Instr.children, form]
  exact hi

theorem placeOf (h : e.Nests n) (span : Span) : Emits env bs (Compiler.placeOf e span) (Leads (n - 2)) := by
  unfold Compiler.placeOf
  split
  case h_1 place form => exact .pure (leads_of_load h form)
  case h_2 => exact .fail ..

theorem operandType (op : BinaryOp) (left right : Ty) :
    Emits env bs (Compiler.operandType op left right span) fun ty => operandType? op left right = some ty := by
  refine .ite (fun _ => .fail ..) fun _ => ?_
  split
  case h_1 ty ok => exact .pure ok
  case h_2 => exact .fail ..

theorem assignment {op : Operator} (hp : Leads (lv.room - 1) place) (he : e.Nests lv.room) :
    Emits env bs (Compiler.assignment op span place e) (·.Nests (lv.room + 1)) := by
  have stored {op : Option BinaryOp} {operandTy : Ty} {v : Instr} (hv : v.Nests lv.room)
      (int : place.ty = .int → v.Nests (lv.room - 1)) :
      Emits env bs (do return ⟨← Compiler.node span (.store place op operandTy v), place.ty, none⟩ : Compiler Operand)
        (·.Nests (lv.room + 1)) := by
    refine operand (List.forall_mem_append.2 ⟨fun i hi => (hp i hi).mono (by omega), List.forall_mem_singleton.2 hv⟩) ?_
    rintro (ty | ⟨_, load⟩)
    · exact ⟨hv.pos, List.forall_mem_append.2 ⟨hp, List.forall_mem_singleton.2 (int ty)⟩⟩
    · cases load
  refine .next fun _ => ?_
  split
  · by_cases int : place.ty = .int
    · rw [int]
      exact (coerce_int he span).bind fun v hv => int ▸ stored (hv.mono (by omega)) fun _ => hv
    · exact (coerce he place.ty span).bind fun v hv => stored hv fun ty => absurd ty int
  · split
    case h_1 => exact .failBind ..
    case h_2 base compound =>
      refine (operandType base place.ty e.ty).bind fun ty typed => .ite (fun accepts => ?_) fun _ => .failBind ..
      refine stored he.tree fun int => he.int ?_
      rw [int] at accepts typed
      rw [int_of_accepts accepts] at typed
      exact (int_of_operandType? (compoundOp?_arithmetic compound) typed).2

theorem expressionBody (hlv : lv.Reaches) : Emits env bs (Compiler.expressionBody lv) (·.Nests (lv.room + 1)) := by
  refine hlv.ternary.bind fun target made => .next fun token? => ?_
  split
  · refine .ite (fun _ => .next fun _ => (placeOf made _).bind fun place leads => ?_) fun _ => .pure made
    exact hlv.expression.bind fun e made => assignment leads made
  · exact .pure made

theorem ternaryBody (hlv : lv.Reaches) : Emits env bs (Compiler.ternaryBody lv) (·.Nests (lv.room + 2)) := by
  refine (hlv.binary 0).bind fun cond hc => .next fun question? => ?_
  split
  case h_1 => exact .pure (hc.mono (by omega))
  case h_2 question =>
    refine .ite (fun _ => .fail _ _) fun _ => (value hlv).bind fun yes hy => .next fun _ =>
      hlv.ternary.bind fun no hn => .next fun _ => ?_
    split
    case h_1 => exact .fail _ _
    case h_2 ty branches =>
      refine (widens yes ty).bind fun y wy => (widens no ty).bind fun n wn => operand (n := lv.room + 1) ?_ ?_
      · have hy := (wy.nests hy).mono (Nat.le_succ _)
        exact List.forall_mem_cons.2 ⟨hc.tree.mono (Nat.le_succ _), List.forall_mem_cons.2 ⟨hy,
          List.forall_mem_singleton.2 (wn.nests hn)⟩⟩
      · rintro (rfl | ⟨_, load⟩)
        · have same : n = no.instr := by simpa [Widens] using wn
          have noInt := hn.int (int_of_branchType? branches).2
          exact ⟨by omega, List.forall_mem_cons.2 ⟨hc.tree, List.forall_mem_cons.2 ⟨wy.nests hy,
            List.forall_mem_singleton.2 (same ▸ noInt)⟩⟩⟩
        · cases load

theorem connect {left right : Operand} {operators : Nat} (connective : Connective) (hl : Chained n operators left)
    (hr : right.Nests n) : Emits env bs (Compiler.connect span connective left right) (Chained n (operators + 1)) := by
  cases connective with
  | binary op =>
    refine (operandType op left.ty right.ty).bind fun ty typed => (widens left ty).bind fun l wl =>
      (widens right ty).bind fun r wr => ?_
    refine .bind (P := fun i => i.form = .binary op ty l r) ⟨fun _ _ hc => by cases hc; rfl⟩ fun i made => .pure ?_
    have operator : i.form.operator? = some (l, r) := by rw [made]; rfl
    refine .more (by rw [operator]; rfl) (hl.grow hr wl wr operator) fun int => ?_
    obtain ⟨computes, rfl⟩ : op.isComparison = false ∧ ty = .int := by
      dsimp only at int
      split at int
      · cases int
      · simp_all
    obtain ⟨leftInt, rightInt⟩ := int_of_operandType? computes typed
    have sameLeft : l = left.instr := by simpa [Widens] using wl
    have sameRight : r = right.instr := by simpa [Widens] using wr
    rw [sameLeft, sameRight] at operator
    exact hl.grow_int hr leftInt rightInt operator
  | logical isAnd =>
    refine .ite (fun _ => .fail _ _) fun _ => .ite (fun _ => .fail _ _) fun _ => ?_
    refine .bind (P := fun i => i.form = .logical isAnd left.instr right.instr) ⟨fun _ _ hc => by cases hc; rfl⟩
      fun i made => .pure ?_
    have operator : i.form.operator? = some (left.instr, right.instr) := by rw [made]; rfl
    have plain (e : Operand) : Widens e .bool e.instr := by simp [Widens]
    exact .more (by rw [operator]; rfl) (hl.grow hr (plain left) (plain right) operator) nofun

theorem binaryBody (hlv : lv.Reaches) (floor : Nat) :
    Emits env bs (Compiler.binaryBody lv floor) (·.Nests (lv.room + 1)) := by
  refine hlv.unary.bind fun first hf => .loop (fun state => state.2 ≤ lv.room ∧ Chained lv.room state.2 state.1)
    ⟨Nat.zero_le _, .first hf⟩ fun (left, chained) ⟨few, hl⟩ => .next fun b? => ?_
  split
  case h_1 => exact .pure (hl.nests few)
  case h_2 span b =>
    refine .ite (fun _ => .fail _ _) fun more => (hlv.binary b.rightFloor).bind fun right hr => ?_
    exact (connect b.connective hl hr).bind fun _ made => .pure ⟨Nat.le_of_not_lt more, made⟩

theorem stepPlace {up before : Bool} (h : e.Nests n) :
    Emits env bs (Compiler.stepPlace span e up before) (·.Nests (n - 2 + 2)) :=
  (placeOf h span).bind fun _ leads => .ite (fun _ => operandWithin leads) fun _ => .fail _ _

theorem access (hlv : lv.Reaches) (token : Token) (room : 1 ≤ lv.room) (hp : Leads (lv.room - 1) place) :
    Emits env bs (Compiler.access lv token e place) (·.Nests (lv.room + 1)) := by
  refine .next fun _ => ?_
  have loaded (place : Place Instr) (leads : Leads (lv.room - 1) place) :
      Emits env bs (do return ⟨← Compiler.node e.instr.span (.load place), place.ty, none⟩ : Compiler Operand)
        (·.Nests (lv.room + 1)) :=
    imp (operandWithin leads) fun _ made => made.mono (by omega)
  have extended {access : Access Instr} {ty : Ty}
      (indices : ∀ i elem, access = .index i elem → i.Nests (lv.room - 1)) :
      Leads (lv.room - 1) { place with path := place.path ++ [access], ty := ty } := by
    simp only [Leads, Place.indices, List.filterMap_append, List.mem_append]
    rintro i (hi | hi)
    · exact hp i hi
    · cases access with
      | index j elem => exact List.mem_singleton.1 hi ▸ indices j elem rfl
      | field => cases hi
  split
  · refine .bind (P := Leads (lv.room - 1)) ?_ loaded
    unfold Compiler.indexAccess
    split
    case h_1 => exact .fail _ _
    case h_2 =>
      refine (integer hlv _).bind fun index made => .next fun _ => .pure (extended fun _ _ same => ?_)
      cases same
      exact made
  · refine .bind (P := Leads (lv.room - 1)) (.next fun ctx => ?_) loaded
    split
    case h_1 => exact .fail _ _
    case h_2 =>
      refine .next fun field => ?_
      split
      case h_1 => exact .fail _ _
      case h_2 => exact .pure (extended fun _ _ same => by cases same)

theorem accesses (hlv : lv.Reaches) : Emits env bs (Compiler.accesses lv) (·.Nests (lv.room + 1)) := by
  refine hlv.primary.bind fun first hf => .loop (·.Nests (lv.room + 1)) hf fun e he => .next fun token? => ?_
  split
  case h_1 => exact .pure he
  case h_2 token =>
    split
    case h_1 place form =>
      have room := (he.load place form).pos
      refine .ite (fun _ => ?_) fun _ => .ite (fun _ => .next fun _ => ?_) fun _ => .pure he
      · exact (access hlv token (by omega) (leads_of_load he form)).bind fun _ made => .pure made
      · exact (stepPlace he).bind fun _ made => .pure (made.mono (by omega))
    case h_2 => exact .ite (fun _ => .fail _ _) fun _ => .ite (fun _ => .fail _ _) fun _ => .pure he

theorem unaryOperation (hlv : lv.Reaches) (span : Span) (op : UnaryOp) :
    Emits env bs (Compiler.unaryOperation lv span op) (·.Nests (lv.room + 1)) := by
  refine .next fun _ => hlv.unary.bind fun e made => .ite (fun _ => ?_) fun _ => .fail _ _
  refine operand (List.forall_mem_singleton.2 made.tree) ?_
  rintro (int | ⟨_, load⟩)
  · exact ⟨made.tree.pos, List.forall_mem_singleton.2 (made.int int)⟩
  · cases load

theorem unaryBody (hlv : lv.Reaches) : Emits env bs (Compiler.unaryBody lv) (·.Nests (lv.room + 1)) := by
  have stepped (span : Span) (up : Bool) :
      Emits env bs (do Compiler.stepPlace span (← lv.unary) up true) (·.Nests (lv.room + 1)) :=
    hlv.unary.bind fun _ made => imp (stepPlace made) fun _ step => step.mono (by have := made.tree.pos; omega)
  refine .next fun token? => ?_
  split
  · exact unaryOperation hlv _ _
  · exact unaryOperation hlv _ _
  · exact unaryOperation hlv _ _
  · exact .next fun _ => hlv.unary.bind fun _ made => .ite (fun _ => .pure (made.mono (by omega))) fun _ => .fail _ _
  · exact .next fun _ => stepped _ true
  · exact .next fun _ => stepped _ false
  · exact accesses hlv

theorem widenArgs {args : List Operand} (targets : List (Option Ty)) (h : ∀ a ∈ args, a.Nests n) :
    Emits env bs (Compiler.widenArgs args targets) fun is => ∀ i ∈ is, i.Nests n := by
  induction args generalizing targets with
  | nil => exact .pure nofun
  | cons arg args ih =>
    obtain ⟨first, rest⟩ := List.forall_mem_cons.1 h
    cases targets with
    | nil => exact .pure nofun
    | cons target? targets =>
      have converted (i : Instr) (nests : i.Nests n) :
          Emits env bs (do return i :: (← Compiler.widenArgs args targets)) fun is => ∀ i ∈ is, i.Nests n :=
        (ih targets rest).bind fun _ all => .pure (List.forall_mem_cons.2 ⟨nests, all⟩)
      cases target? with
      | some target => exact (widen first target).bind converted
      | none => exact converted arg.instr first.tree

theorem call (hlv : lv.Reaches) (name : Token) : Emits env bs (Compiler.call lv name) (·.Nests (lv.room + 2)) := by
  have resolved (args : List Operand) (h : ∀ a ∈ args, a.Nests lv.room) : Emits env bs (do
      let r ← onScopes? fun s => s.resolveCall name.text name.span (args.map Operand.ty)
      let instrs ← Compiler.widenArgs args r.conversions
      return ⟨← Compiler.node name.span (.call r.callee instrs r.ret), r.ret, none⟩ : Compiler Operand)
        (·.Nests (lv.room + 2)) :=
    .next fun r => (widenArgs r.conversions h).bind fun _ all => operandWithin all
  refine .next fun _ => .next fun closing? => ?_
  split
  · exact resolved [] nofun
  · exact (Emits.commaList (value hlv)).bind fun args h => .next fun _ => resolved args h

theorem primaryBody (hlv : lv.Reaches) : Emits env bs (Compiler.primaryBody lv) (·.Nests (lv.room + 2)) := by
  have leaf {form : Form Instr} {span : Span} {ty : Ty} {constant : Option Variable} (alone : form.children = []) :
      Emits env bs (do return ⟨← Compiler.node span form, ty, constant⟩ : Compiler Operand) (·.Nests (lv.room + 2)) :=
    operandWithin (by rw [alone]; nofun)
  refine .next fun token? => ?_
  cases token? with
  | none => exact .next fun _ => .fail _ _
  | some token =>
    dsimp only
    split
    · split
      · exact leaf rfl
      · exact .fail _ _
    · split
      · exact leaf rfl
      · exact .fail _ _
    · exact leaf rfl
    · exact leaf rfl
    · exact leaf rfl
    · exact leaf rfl
    · refine .next fun name => .next fun ctx => ?_
      split
      · exact .fail _ _
      · exact .next fun opening => .ite (fun _ => .next fun _ => leaf rfl) fun _ => leaf rfl
    · exact hlv.expression.bind fun _ made => .next fun _ => .pure (made.mono (by omega))
    · refine .next fun _ => .ite (fun _ => call hlv token) fun _ => .next fun s => ?_
      split
      · exact leaf rfl
      · refine .next fun ctx => ?_
        split
        · exact leaf rfl
        · exact .fail _ _
    · exact .fail _ _

end Reaches

theorem room_ofRoom (room : Nat) : (ofRoom room).room = room := by
  induction room with
  | zero => rfl
  | succ room ih => exact congrArg (· + 1) ih

theorem reaches_ofRoom (room : Nat) : (ofRoom room).Reaches := by
  induction room with
  | zero =>
    have tooDeep {env : Environment} {bs : List Breakable} {α : Type} {P : α → Prop} :
        Emits env bs (do Compiler.fail .tooDeep (← here)) P :=
      .next fun _ => .fail _ _
    exact ⟨tooDeep, tooDeep, fun _ => tooDeep, tooDeep, tooDeep⟩
  | succ room ih =>
    exact ⟨.inFrame false ih.expressionBody, .inFrame false ih.ternaryBody,
      fun floor => .inFrame false (ih.binaryBody floor), .inFrame false ih.unaryBody, .inFrame false ih.primaryBody⟩

end Level

-- What the whole room reaches is a number that no unifier should compute.
attribute [irreducible] Compile.reach

end Tickwise
