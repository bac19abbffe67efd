import Tickwise.Compile.Unit
import Tickwise.Proofs.Compile.Emission
set_option autoImplicit false

/-!
# Comparing programs

Instructions are compared form by form, down to a depth. So what a source compiles to can be computed, where it is a
program that is written out.
-/
namespace Tickwise

variable {ι : Type}

def Access.same (same : ι → ι → Bool) : Access ι → Access ι → Bool
  | .index e ty, .index e' ty' => same e e' && ty = ty'
  | .field k, .field k' => k = k'
  | _, _ => false

def Place.same (same : ι → ι → Bool) (p q : Place ι) : Bool :=
  p.root = q.root && p.name = q.name && p.path.isEqv q.path (Access.same same) && p.ty = q.ty

def Catch.same (same : ι → ι → Bool) (c d : Catch ι) : Bool := same c.filter d.filter && same c.handler d.handler

def Form.same (same : ι → ι → Bool) : Form ι → Form ι → Bool
  | .empty, .empty => true
  | .block body, .block body' => body.isEqv body' same
  | .declList items, .declList items' => items.isEqv items' same
  | .declare var name ty dims init, .declare var' name' ty' dims' init' =>
    var = var' && name = name' && ty = ty' && dims.isEqv dims' same && init.toList.isEqv init'.toList same
  | .branch cond yes no, .branch cond' yes' no' =>
    same cond cond' && same yes yes' && no.toList.isEqv no'.toList same
  | .whileLoop label cond body, .whileLoop label' cond' body' => label = label' && same cond cond' && same body body'
  | .doWhile label body cond, .doWhile label' body' cond' => label = label' && same body body' && same cond cond'
  | .forLoop label init cond next body, .forLoop label' init' cond' next' body' =>
    label = label' && init.isEqv init' same && cond.toList.isEqv cond'.toList same && next.isEqv next' same &&
      same body body'
  | .switch label value cases body, .switch label' value' cases' body' =>
    label = label' && same value value' && cases = cases' && body.isEqv body' same
  | .breakTo label, .breakTo label' => label = label'
  | .continueTo label, .continueTo label' => label = label'
  | .ret value, .ret value' => value.toList.isEqv value'.toList same
  | .tryCatch body catches, .tryCatch body' catches' => same body body' && catches.isEqv catches' (Catch.same same)
  | .throw value, .throw value' => same value value'
  | .literal v, .literal v' => v = v'
  | .load place, .load place' => place.same same place'
  | .store place op ty value, .store place' op' ty' value' =>
    place.same same place' && op = op' && ty = ty' && same value value'
  | .step place up before, .step place' up' before' => place.same same place' && up = up' && before = before'
  | .binary op ty left right, .binary op' ty' left' right' =>
    op = op' && ty = ty' && same left left' && same right right'
  | .logical isAnd left right, .logical isAnd' left' right' =>
    isAnd = isAnd' && same left left' && same right right'
  | .unary op operand, .unary op' operand' => op = op' && same operand operand'
  | .ternary cond yes no, .ternary cond' yes' no' => same cond cond' && same yes yes' && same no no'
  | .convert target operand, .convert target' operand' => target = target' && same operand operand'
  | .call callee args ty, .call callee' args' ty' => callee = callee' && args.isEqv args' same && ty = ty'
  | .new cls, .new cls' => cls = cls'
  | .list ty elements, .list ty' elements' => ty = ty' && elements.isEqv elements' same
  | _, _ => false

def Instr.same : (depth : Nat) → Instr → Instr → Bool
  | 0, _, _ => false
  | depth + 1, .mk id span form, .mk id' span' form' => id = id' && span = span' && form.same (same depth) form'

def Function.same (depth : Nat) (f g : Function) : Bool :=
  f.id = g.id && f.name = g.name && f.params = g.params && f.ret = g.ret && f.body.same depth g.body &&
    f.isExtern = g.isExtern && f.span = g.span

def Program.same (depth : Nat) (p q : Program) : Bool :=
  p.id = q.id && p.functions.isEqv q.functions (Function.same depth) && p.classes = q.classes &&
    p.nodeCount = q.nodeCount

section

variable {same : ι → ι → Bool} (sound : ∀ a b, same a b = true → a = b)

include sound

theorem eq_of_isEqv {as bs : List ι} (h : as.isEqv bs same = true) : as = bs := by
  induction as generalizing bs with
  | nil => cases bs with
    | nil => rfl
    | cons => cases h
  | cons a as ih => cases bs with
    | nil => cases h
    | cons b bs =>
      obtain ⟨first, rest⟩ := Bool.and_eq_true_iff.1 h
      rw [sound a b first, ih rest]

theorem eq_of_isEqv_toList {a b : Option ι} (h : a.toList.isEqv b.toList same = true) : a = b := by
  have lists := eq_of_isEqv sound h
  cases a <;> cases b <;> simp_all

theorem Access.eq_of_same {a b : Access ι} (h : a.same same b = true) : a = b := by
  unfold Access.same at h
  split at h
  · simp only [Bool.and_eq_true, decide_eq_true_eq] at h
    rw [sound _ _ h.1, h.2]
  · rw [of_decide_eq_true h]
  · cases h

theorem Place.eq_of_same {p q : Place ι} (h : p.same same q = true) : p = q := by
  obtain ⟨_, _, path, _⟩ := p
  obtain ⟨_, _, path', _⟩ := q
  simp only [Place.same, Bool.and_eq_true, decide_eq_true_eq] at h
  obtain ⟨⟨⟨rfl, rfl⟩, paths⟩, rfl⟩ := h
  rw [eq_of_isEqv (fun _ _ => Access.eq_of_same sound) paths]

theorem Catch.eq_of_same {c d : Catch ι} (h : c.same same d = true) : c = d := by
  obtain ⟨filter, handler⟩ := Bool.and_eq_true_iff.1 h
  cases c
  cases d
  exact congrArg₂ _ (sound _ _ filter) (sound _ _ handler)

theorem Form.eq_of_same {f g : Form ι} (h : f.same same g = true) : f = g := by
  have lists {as bs : List ι} : as.isEqv bs same = true → as = bs := eq_of_isEqv sound
  have options {a b : Option ι} : a.toList.isEqv b.toList same = true → a = b := eq_of_isEqv_toList sound
  have catches {as bs : List (Catch ι)} : as.isEqv bs (Catch.same same) = true → as = bs :=
    eq_of_isEqv fun _ _ => Catch.eq_of_same sound
  have places {p q : Place ι} : p.same same q = true → p = q := Place.eq_of_same sound
  unfold Form.same at h
  split at h
  all_goals grind

end

theorem Instr.eq_of_same {depth : Nat} {i j : Instr} (h : i.same depth j = true) : i = j := by
  induction depth generalizing i j with
  | zero => cases h
  | succ depth ih =>
    obtain ⟨id, span, form⟩ := i
    obtain ⟨id', span', form'⟩ := j
    simp only [same, Bool.and_eq_true, decide_eq_true_eq] at h
    obtain ⟨⟨rfl, rfl⟩, forms⟩ := h
    rw [Form.eq_of_same (fun _ _ => ih) forms]

theorem Instr.eq_some_of_same {made : Option Instr} {i : Instr} (depth : Nat)
    (h : made.any (same depth · i) = true) : made = some i := by
  cases made with
  | none => cases h
  | some j => rw [eq_of_same h]

theorem Function.eq_of_same {depth : Nat} {f g : Function} (h : f.same depth g = true) : f = g := by
  cases f
  cases g
  simp only [same, Bool.and_eq_true, decide_eq_true_eq] at h
  obtain ⟨⟨⟨⟨⟨⟨rfl, rfl⟩, rfl⟩, rfl⟩, bodies⟩, rfl⟩, rfl⟩ := h
  rw [Instr.eq_of_same bodies]

namespace Program

theorem ofSource_eq {id source : String} {env : Environment} {p : Program} (depth : Nat)
    (h : (ofSource id env source).toOption.any (·.same depth p) = true) (environment : p.env = env) :
    ofSource id env source = .ok p := by
  cases compiled : ofSource id env source with
  | error =>
    rw [compiled] at h
    cases h
  | ok q =>
    have same : q.same depth p = true := by
      rw [compiled] at h
      exact h
    obtain ⟨known, _⟩ := emitted_ofTokens compiled
    cases p
    cases q
    simp only [Program.same, Bool.and_eq_true, decide_eq_true_eq] at same
    obtain ⟨⟨⟨rfl, functions⟩, rfl⟩, rfl⟩ := same
    rw [eq_of_isEqv (fun _ _ => Function.eq_of_same) functions]
    cases known
    cases environment
    rfl

end Program
end Tickwise
