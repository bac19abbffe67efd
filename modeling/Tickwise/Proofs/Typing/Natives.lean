import Mathlib.Data.List.Forall2
import Tickwise.Proofs.Typing.Machine
set_option autoImplicit false

/-!
# Typed natives

What typed programs rely on of natives, which are invoked with arguments of their parameter types in typed storage.
-/
namespace Tickwise

def Shapes.Takes (S : Shapes) : ParamType → Value Ref → Prop
  | .exact ty, v => S.Has ty v
  | .anyArray, v => ∃ elem, S.Has (.array elem) v
  | .any, v => ∃ ty, ty ≠ .void ∧ S.Has ty v

/-- Invoked with arguments of its parameter types in typed storage, the native answers typed storage, of
the same shapes and others for what is new, and when it is done a value of its result type. -/
def NativeFn.KeepsTypes (f : NativeFn) (class? : String → Option ClassLayout) : Prop :=
  ∀ (S : Shapes) (c : NativeCall), S.class? = class? → S.Describes c.heap →
    List.Forall₂ (fun param v => S.Takes param v.value) f.params c.args →
    ∃ S', S.Le S' ∧ S'.Describes (f.handler c).heap ∧
      ∀ v, (f.handler c).outcome = .done v → S'.Has f.ret v.value

/-- The same of storage whose slots are marked in a way, which the native keeps to. -/
def NativeFn.KeepsTypesAs (f : NativeFn) (M : Marking) (class? : String → Option ClassLayout) : Prop :=
  ∀ (S : MarkedShapes) (c : NativeCall), S.marking = M → S.class? = class? → S.Describes c.heap →
    List.Forall₂ (fun param v => S.Takes param v.value) f.params c.args →
    ∃ S' : MarkedShapes, S.Le S' ∧ S'.Describes (f.handler c).heap ∧
      ∀ v, (f.handler c).outcome = .done v → S'.Has f.ret v.value

theorem NativeFn.KeepsTypes.loose {f : NativeFn} {class? : String → Option ClassLayout}
    (h : f.KeepsTypes class?) : f.KeepsTypesAs .loose class? := by
  rintro ⟨S, _⟩ c rfl classes described args
  obtain ⟨S', le, described', done⟩ := h S c classes (Shapes.describes_loose.1 described) args
  exact ⟨⟨S', .loose⟩, ⟨le, rfl⟩, Shapes.describes_loose.2 described', done⟩

/-- Invoked with arguments of its parameter types in typed storage, the handler returns. -/
def NativeFn.Returns (f : NativeFn) (class? : String → Option ClassLayout) : Prop :=
  ∀ (S : Shapes) (c : NativeCall), S.class? = class? → S.Describes c.heap →
    List.Forall₂ (fun param v => S.Takes param v.value) f.params c.args → ∀ crash, (f.handler c).outcome ≠ .crashed crash

def Declarations.Crashes (D : Declarations) : Prop := ∃ id f, D.native? id = some f ∧ ¬ f.Returns D.class?

namespace Declarations

variable {D : Declarations}

def alone (D : Declarations) : Declarations := { D with native? := fun _ => none }

theorem not_crashes_alone (D : Declarations) : ¬ D.alone.Crashes := fun ⟨_, _, known, _⟩ => nomatch known

theorem Leads.alone {path : List (Access Instr)} {src dst : Ty} (h : D.Leads src path dst) :
    D.alone.Leads src path dst := by
  induction path generalizing src with
  | nil => exact h
  | cons access path ih =>
    cases access with
    | index e elem => exact ⟨h.1, ih h.2⟩
    | field k =>
      obtain ⟨c, cls, f, src, known, field, leads⟩ := h
      exact ⟨c, cls, f, src, known, field, ih leads⟩

theorem Names.alone {place : Place Instr} (h : D.Names place) : D.alone.Names place := by
  obtain ⟨ty, var, leads⟩ := h
  exact ⟨ty, var, leads.alone⟩

end Declarations

theorem Machine.Typed.alone {D : Declarations} {S : MarkedShapes} {m : Machine} (h : m.Typed D S) :
    m.Typed D.alone S where
  classes := h.classes
  heap := h.heap
  frames f hf := ⟨(h.frames f hf).locals, (h.frames f hf).operands⟩
  deeper f hf := ⟨(h.deeper f hf).locals, (h.deeper f hf).operands⟩

end Tickwise
