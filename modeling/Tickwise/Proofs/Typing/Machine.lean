import Tickwise.Proofs.Machine.Frames
import Tickwise.Proofs.Typing.Instructions
set_option autoImplicit false

/-!
# Typed machines

Variables are slots of their declared types, and storage is as its shapes say. Reading, writing and
following a place keep to that.
-/
namespace Tickwise

def MarkedShapes.HasLocal (S : MarkedShapes) (D : Declarations) (v : Variable) : Prop :=
  ∃ ty, D.var? v.id = some ty ∧ S.HasSlot ty v

/-- The locals of a frame are slots of their declared types, and its operands are what some expressions
yield. -/
structure MarkedShapes.HasFrame (S : MarkedShapes) (D : Declarations) (f : Frame Variable) : Prop where
  locals : ∀ v ∈ f.locals, S.HasLocal D v
  operands : ∀ v ∈ f.operands, ∃ ty, S.HasTemp ty v

def MarkedShapes.HasFrames (S : MarkedShapes) (D : Declarations) (fs : List (Frame Variable)) : Prop :=
  ∀ f ∈ fs, S.HasFrame D f

namespace MarkedShapes

variable {S S' : MarkedShapes} {D : Declarations} {fs gs : List (Frame Variable)} {f : Frame Variable}
  {v w : Variable} {id : VarId}

theorem HasLocal.mono (hS : S.Le S') (h : S.HasLocal D v) : S'.HasLocal D v := by
  obtain ⟨ty, var, slot⟩ := h
  exact ⟨ty, var, slot.mono hS⟩

theorem HasFrame.mono (hS : S.Le S') (h : S.HasFrame D f) : S'.HasFrame D f where
  locals v hv := (h.locals v hv).mono hS
  operands v hv :=
    let ⟨ty, temp⟩ := h.operands v hv
    ⟨ty, temp.mono hS⟩

theorem HasFrames.mono (hS : S.Le S') (h : S.HasFrames D fs) : S'.HasFrames D fs :=
  fun f hf => (h f hf).mono hS

theorem HasFrames.sub (h : S.HasFrames D fs) (hs : ∀ f ∈ gs, f ∈ fs) : S.HasFrames D gs :=
  fun f hf => h f (hs f hf)

theorem HasFrames.cons (hf : S.HasFrame D f) (h : S.HasFrames D fs) : S.HasFrames D (f :: fs) :=
  List.forall_mem_cons.2 ⟨hf, h⟩

theorem HasFrame.stores (h : S.HasFrame D f) {g : Frame Variable} (stores : f.Stores v g) (hv : S.HasLocal D v) :
    S.HasFrame D g where
  locals w hw := by
    rcases stores.locals w hw with rfl | hw
    · exact hv
    · exact h.locals w hw
  operands := stores.operands ▸ h.operands

theorem HasFrames.setVar (h : S.HasFrames D fs) (hv : S.HasLocal D v) :
    S.HasFrames D (Frame.setVar id v fs) := by
  intro f hf
  obtain ⟨g, hg, stores⟩ := Frame.Stores.of_mem_setVar hf
  exact (h g hg).stores stores hv

theorem HasFrames.declareVar (h : S.HasFrames D fs) (hv : S.HasLocal D v) :
    S.HasFrames D (Frame.declareVar v fs) := by
  intro f hf
  obtain ⟨g, hg, stores⟩ := Frame.Stores.of_mem_declareVar hf
  exact (h g hg).stores stores hv

theorem HasFrames.findVar? (h : S.HasFrames D fs) (found : Frame.findVar? id fs = some v) :
    S.HasLocal D v ∧ v.id = id := by
  obtain ⟨same, f, hf, mem⟩ := Frame.mem_of_findVar? found
  exact ⟨(h f hf).locals v mem, same⟩

end MarkedShapes

/-- The machine is as the declarations and the shapes of its storage say. -/
structure Machine.Typed (D : Declarations) (S : MarkedShapes) (m : Machine) : Prop where
  classes : S.class? = D.class?
  heap : S.Describes m.heap
  frames : S.HasFrames D m.frames
  deeper : S.HasFrames D m.deeper

namespace Machine.Typed

variable {D : Declarations} {S S' : MarkedShapes} {m : Machine} {v : Variable} {id : VarId} {ty : Ty}

theorem withHeap (h : m.Typed D S) (hS : S.Le S') {heap : Heap} (described : S'.Describes heap) :
    Machine.Typed D S' { m with heap := heap } :=
  ⟨hS.classes.trans h.classes, described, h.frames.mono hS, h.deeper.mono hS⟩

theorem allFrames (h : m.Typed D S) : S.HasFrames D m.allFrames := by
  intro f hf
  rcases List.mem_append.1 hf with hf | hf
  · exact h.deeper f (List.mem_reverse.1 hf)
  · exact h.frames f hf

theorem findVar? (h : m.Typed D S) (found : m.findVar? id = some v) (declared : D.var? id = some ty) :
    S.HasSlot ty v ∧ v.id = id := by
  obtain ⟨⟨ty', declared', slot⟩, same⟩ := h.allFrames.findVar? found
  rw [same, declared] at declared'
  cases declared'
  exact ⟨slot, same⟩

theorem setVar (h : m.Typed D S) (hv : S.HasLocal D v) : (m.setVar id v).Typed D S := by
  have all : S.HasFrames D (Frame.setVar id v m.allFrames) := h.allFrames.setVar hv
  refine ⟨h.classes, h.heap, ?_, ?_⟩
  · exact all.sub fun _ => List.mem_of_mem_drop
  · exact all.sub fun f hf => List.mem_of_mem_take (List.mem_reverse.1 hf)

theorem declare (h : m.Typed D S) (hv : S.HasLocal D v) : (m.declare v).Typed D S := by
  refine ⟨h.classes, h.heap, ?_, h.deeper⟩
  intro f hf
  rcases List.mem_append.1 hf with hf | hf
  · exact h.frames f (List.mem_of_mem_take hf)
  · have outer : S.HasFrames D (m.frames.drop 1) := h.frames.sub fun _ => List.mem_of_mem_drop
    exact outer.declareVar hv f hf

theorem modifyFrame (h : m.Typed D S) {g : Frame Variable → Frame Variable}
    (same : ∀ f, S.HasFrame D f → S.HasFrame D (g f)) : (m.modifyFrame g).Typed D S := by
  obtain ⟨_ | ⟨f, fs⟩, _⟩ := m
  · exact h
  · obtain ⟨classes, heap, frames, deeper⟩ := h
    have own := same f (frames f List.mem_cons_self)
    exact ⟨classes, heap, .cons own (frames.sub fun _ => List.mem_cons_of_mem _), deeper⟩

theorem own (h : m.Typed D S) : S.HasFrame D m.own := by
  have frames := h.frames
  unfold Machine.own
  cases hf : m.frames with
  | nil => exact ⟨nofun, nofun⟩
  | cons f fs =>
    rw [hf] at frames
    exact frames f List.mem_cons_self

end Machine.Typed

def MarkedShapes.Owns (S : MarkedShapes) (D : Declarations) (h : Heap) (ty : Ty) : Storage → Prop
  | .var id => D.var? id = some ty
  | .cell ref position => position < (h.elements ref).size ∧
      ∃ shape, S.at? ref = some shape ∧ shape.slot? position = some ty

namespace MarkedShapes.Owns

variable {D : Declarations} {S : MarkedShapes} {m : Machine} {storage : Storage} {ty : Ty} {v : Variable}

theorem read? (h : S.Owns D m.heap ty storage) (hm : m.Typed D S) (hv : m.read? storage = some v) :
    S.HasSlot ty v ∧ ∀ id, storage = .var id → v.id = id := by
  cases storage with
  | var id =>
    obtain ⟨slot, same⟩ := hm.findVar? hv h
    exact ⟨slot, fun _ hid => by cases hid; exact same⟩
  | cell ref position =>
    obtain ⟨_, shape, at_, typed⟩ := h
    obtain ⟨ty', typed', slot⟩ := (hm.heap.fills at_).1 position v hv
    cases typed.symm.trans typed'
    exact ⟨slot, nofun⟩

theorem write (h : S.Owns D m.heap ty storage) (hm : m.Typed D S) (hv : S.HasSlot ty v)
    (same : ∀ id, storage = .var id → v.id = id) : (m.write storage v).Typed D S := by
  cases storage with
  | var id =>
    have declared : D.var? id = some ty := h
    rw [← same id rfl] at declared
    exact hm.setVar ⟨ty, declared, hv⟩
  | cell ref position =>
    obtain ⟨_, shape, at_, typed⟩ := h
    exact hm.withHeap (.refl S) (hm.heap.write at_ typed hv)

end MarkedShapes.Owns
end Tickwise
