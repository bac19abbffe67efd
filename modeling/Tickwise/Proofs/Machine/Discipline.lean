import Tickwise.Proofs.Machine.Parallel
import Tickwise.Proofs.Typing.Machine
set_option autoImplicit false

/-!
# Disciplines

A discipline says what variables may hold and how storage may change. One that is kept by the few ways in
which values and storage are made is kept by whatever an instruction does between the instructions that it
executes.
-/
namespace Tickwise

open Exec MarkedShapes

def Value.IsPlain {ρ : Type} : Value ρ → Prop
  | string _ => False
  | array _ => False
  | object _ _ => False
  | _ => True

/-- What variables may hold, and how storage may change. A variable is judged by its value and its label, in
the heap that it refers to. -/
structure Discipline where
  Admits : Heap → Variable → Prop
  /-- Is storage as it is to be? -/
  Stored : Heap → Prop
  /-- May storage have become this? -/
  Onward : Heap → Heap → Prop
  /-- May this be turned into a value of a type? -/
  Converts : Ty → Variable → Prop
  /-- May an array be so long? -/
  Roomy : Nat → Prop
  refl : ∀ h, Onward h h
  trans : ∀ {h k l}, Onward h k → Onward k l → Onward h l
  mono : ∀ {h k v}, Onward h k → Admits h v → Admits k v
  same : ∀ {h} {v w : Variable}, w.value = v.value → w.label = v.label → Admits h v → Admits h w
  plain : ∀ {h v}, v.label = none → v.value.IsPlain → Admits h v
  text : ∀ {h v s}, v.label = none → v.value = .string s → s.utf8ByteSize ≤ maxStringBytes → Admits h v
  unlabelled : ∀ {h} {v w : Variable}, w.value = v.value → w.label = none → Admits h v → Admits h w
  number : ∀ {h v w n}, Admits h v → v.toInt = .ok n → w.value = .int n → w.label = v.label → Admits h w
  converted : ∀ {h v w s}, Admits h v → Converts .string v → h.toText v = .ok s → w.value = .string s →
    w.label = none → Admits h w
  element : ∀ {h v r}, Stored h → Admits h v → v.value.storage? = some r → ∀ w ∈ h.elements r, Admits h w
  write : ∀ {h v r w}, Stored h → Admits h v → v.value.storage? = some r → Admits h w → ∀ k,
    Stored (h.write r k w) ∧ Onward h (h.write r k w)
  extend : ∀ {h v r w n}, Stored h → Admits h v → v.value = .array r → Admits h w → n ≤ maxElements →
    Stored (h.extend r n w) ∧ Onward h (h.extend r n w)
  alloc : ∀ {h slots} {v : Variable}, Stored h → (∀ w ∈ slots, Admits h w) →
    v.value = .array h.size ∧ Roomy slots.size ∨ (∃ c, v.value = .object c h.size) → v.label = none →
    Stored (h.alloc slots).2 ∧ Onward h (h.alloc slots).2 ∧ Admits (h.alloc slots).2 v
  roomy : ∀ {n}, n ≤ maxElements → Roomy n

namespace Discipline

variable {A : Discipline} {α β : Type} {h k : Heap} {v w : Variable} {ty : Ty}

structure HoldsFrame (A : Discipline) (h : Heap) (f : Frame Variable) : Prop where
  locals : ∀ v ∈ f.locals, A.Admits h v
  operands : ∀ v ∈ f.operands, A.Admits h v

/-- All variables of a machine are admitted, and its storage is as it is to be. -/
structure Holds (A : Discipline) (m : Machine) : Prop where
  heap : A.Stored m.heap
  frames : ∀ f ∈ m.frames, A.HoldsFrame m.heap f
  deeper : ∀ f ∈ m.deeper, A.HoldsFrame m.heap f

/-!
## Values
-/

theorem admits_temp (h : Heap) (ty : Ty) {value : Value Ref} (plain : value.IsPlain) :
    A.Admits h (Slot.temp ty value) :=
  A.plain rfl plain

theorem admits_zeroed (h : Heap) (ty : Ty) : A.Admits h (Slot.zeroed ty) := by
  cases ty with
  | string => exact A.text rfl rfl (Nat.zero_le _)
  | _ => exact A.plain rfl trivial

theorem admits_fresh (h : Heap) (ty : Ty) : A.Admits h (Slot.fresh ty) := by
  unfold Slot.fresh
  split <;> exact A.plain rfl trivial

theorem admits_toTemp (hv : A.Admits h v) : A.Admits h v.toTemp := A.same (v := v) rfl rfl hv

theorem admits_declaredAs (hv : A.Admits h v) (name : String) (id : VarId) :
    A.Admits h (v.declaredAs name id) := A.same (v := v) rfl rfl hv

theorem admits_ofString (h : Heap) {s : String} (hs : s.utf8ByteSize ≤ maxStringBytes) :
    A.Admits h (Slot.ofString s) :=
  A.text rfl rfl hs

/-- What is stored is admitted: its label goes with an integer, and with nothing else. -/
theorem admits_assign {dst src stored : Variable} (hv : A.Admits h src) (converts : A.Converts dst.ty src)
    (assigned : h.assign dst src = .ok stored) : A.Admits h stored := by
  obtain ⟨name, id, ty, value, label⟩ := dst
  change A.Converts ty src at converts
  obtain ⟨value, convert, rfl⟩ := ok_of_map assigned
  cases ty with
  | int =>
    obtain ⟨n, number, rfl⟩ := ok_of_map convert
    exact A.number hv number rfl rfl
  | string =>
    obtain ⟨s, text, rfl⟩ := ok_of_map convert
    exact A.converted hv converts text rfl rfl
  | void =>
    cases convert
    exact A.plain rfl trivial
  | bool =>
    obtain ⟨b, _, rfl⟩ := ok_of_map convert
    exact A.plain rfl trivial
  | float =>
    obtain ⟨x, _, rfl⟩ := ok_of_map convert
    exact A.plain rfl trivial
  | null | array _ | named _ =>
    dsimp only [Heap.convertValue] at convert
    split at convert
    case h_1 => cases convert
    case h_2 r same =>
      cases convert
      exact A.unlabelled same.symm rfl hv
    case h_3 c r same =>
      cases convert
      exact A.unlabelled same.symm rfl hv
    case h_4 =>
      cases convert
      exact A.plain rfl trivial

theorem admits_convert (hv : A.Admits h v) (converts : A.Converts ty v) (converted : h.convert v ty = .ok w) :
    A.Admits h w :=
  have converts : A.Converts (Slot.fresh ty : Variable).ty v := converts
  admits_assign hv converts converted

theorem admits_binary {op : BinaryOp} {left right : Variable} (computed : h.binary op left right ty = .ok w) :
    A.Admits h w := by
  unfold Heap.binary at computed
  cases ty with
  | int =>
    obtain ⟨a, _, computed⟩ := ok_of_bind_except computed
    obtain ⟨b, _, computed⟩ := ok_of_bind_except computed
    split at computed
    · cases computed
      exact admits_temp h _ trivial
    · obtain ⟨n, _, computed⟩ := ok_of_bind_except computed
      cases computed
      exact admits_temp h _ trivial
  | float =>
    obtain ⟨a, _, computed⟩ := ok_of_bind_except computed
    obtain ⟨b, _, computed⟩ := ok_of_bind_except computed
    split at computed
    · cases computed
      exact admits_temp h _ trivial
    · obtain ⟨n, _, computed⟩ := ok_of_bind_except computed
      cases computed
      exact admits_temp h _ trivial
  | bool =>
    obtain ⟨a, _, computed⟩ := ok_of_bind_except computed
    obtain ⟨b, _, computed⟩ := ok_of_bind_except computed
    cases computed
    exact admits_temp h _ trivial
  | string =>
    obtain ⟨a, _, computed⟩ := ok_of_bind_except computed
    obtain ⟨b, _, computed⟩ := ok_of_bind_except computed
    split at computed
    · split at computed
      · cases computed
      · next short =>
        cases computed
        refine admits_ofString h ?_
        rw [String.utf8ByteSize_append]
        exact Nat.le_of_not_gt short
    · cases computed
      exact admits_temp h _ trivial
  | _ =>
    obtain ⟨b, _, computed⟩ := ok_of_bind_except computed
    cases computed
    exact admits_temp h _ trivial

theorem admits_unary {op : UnaryOp} (computed : v.unary op = .ok w) : A.Admits h w := by
  unfold Slot.unary at computed
  split at computed <;> obtain ⟨_, _, rfl⟩ := ok_of_map computed <;> exact admits_temp h _ trivial

theorem admits_step {up : Bool} (computed : v.step up = .ok w) : A.Admits h w := by
  unfold Slot.step at computed
  split at computed
  all_goals cases computed
  all_goals exact A.plain rfl trivial

/-!
## Storage
-/

/-- Something made of storage is as `Q` says, in storage as it is to be. -/
def Makes (A : Discipline) (h : Heap) (Q : Heap → α → Prop) (made : α × Heap) : Prop :=
  A.Onward h made.2 ∧ A.Stored made.2 ∧ Q made.2 made.1

theorem Makes.rebase {Q : Heap → α → Prop} {made : α × Heap} (le : A.Onward h k) (makes : A.Makes k Q made) :
    A.Makes h Q made :=
  ⟨A.trans le makes.1, makes.2⟩

theorem makes_newArray (elem : Ty) {vs : List Variable} (stored : A.Stored h) (hvs : ∀ v ∈ vs, A.Admits h v)
    (roomy : A.Roomy vs.length) : A.Makes h A.Admits (h.newArray elem vs) := by
  have all : ∀ v ∈ vs.toArray, A.Admits h v := fun v hv => hvs v (Array.mem_def.1 hv)
  obtain ⟨stored, onward, admits⟩ := A.alloc (v := Slot.temp (.array elem) (.array h.size)) stored all
    (.inl ⟨rfl, roomy⟩) rfl
  exact ⟨onward, stored, admits⟩

theorem makes_newObject (cls : ClassLayout) (stored : A.Stored h) : A.Makes h A.Admits (h.newObject cls) := by
  have all : ∀ v ∈ (cls.fields.map fun f => { Slot.zeroed f.ty with name := some f.name : Variable }).toArray,
      A.Admits h v := by
    intro v hv
    obtain ⟨f, _, rfl⟩ := List.mem_map.1 (Array.mem_def.1 hv)
    exact A.same (v := Slot.zeroed f.ty) rfl rfl (admits_zeroed h f.ty)
  obtain ⟨stored, onward, admits⟩ := A.alloc (v := Slot.temp (.named cls.name) (.object cls.name h.size)) stored
    all (.inr ⟨_, rfl⟩) rfl
  exact ⟨onward, stored, admits⟩

theorem makes_repeat {make : Heap → Variable × Heap} (makes : ∀ {h}, A.Stored h → A.Makes h A.Admits (make h))
    (count : Nat) {made : Array Variable} (stored : A.Stored h) (all : ∀ v ∈ made, A.Admits h v) :
    A.Makes h (fun k made => ∀ v ∈ made, A.Admits k v) (Heap.repeatMake make count made h) := by
  induction count generalizing made h with
  | zero => exact ⟨A.refl h, stored, all⟩
  | succ count ih =>
    obtain ⟨onward, stored, admits⟩ := makes stored
    have pushed : ∀ v ∈ made.push (make h).1, A.Admits (make h).2 v := fun v hv => by
      rcases Array.mem_push.1 hv with old | rfl
      · exact A.mono onward (all v old)
      · exact admits
    exact (ih stored pushed).rebase onward

/-- Sizes of dimensions that may be made: what is made of one that is empty has no parts. -/
def Fitting : List Nat → Prop
  | [] => True
  | n :: sizes => n ≤ maxElements ∧ (0 < n → Fitting sizes)

theorem fitting_of_checkSizes {product : Nat} {sizes : List Int32} {counts : List Nat} (some : 0 < product)
    (checked : Heap.checkSizes product sizes = .ok counts) : Fitting counts := by
  induction sizes generalizing product counts with
  | nil =>
    cases checked
    trivial
  | cons size sizes ih =>
    unfold Heap.checkSizes at checked
    split at checked
    · cases checked
    · dsimp only at checked
      split at checked
      · cases checked
      · next small =>
        obtain ⟨rest, later, rfl⟩ := ok_of_map checked
        have one := Nat.le_mul_of_pos_left size.toInt.toNat some
        exact ⟨by omega, fun more => ih (Nat.mul_pos some more) later⟩

theorem makes_buildArray (ty : Ty) {sizes : List Nat} (fitting : Fitting sizes) (stored : A.Stored h) :
    A.Makes h A.Admits (Heap.buildArray ty sizes h) := by
  induction ty generalizing sizes h with
  | array elem ih =>
    have none : ∀ v ∈ (#[] : Array Variable), A.Admits h v := fun v hv => absurd hv (Array.not_mem_empty v)
    have slots : A.Makes h (fun k made => ∀ v ∈ made, A.Admits k v)
        (Heap.repeatMake (Heap.buildArray elem sizes.tail) (sizes.headD 0) #[] h) := by
      -- With no first dimension, or an empty one, nothing is made of the others.
      by_cases more : 0 < sizes.headD 0
      · refine makes_repeat (fun stored => ih ?_ stored) _ stored none
        cases sizes with
        | nil => trivial
        | cons n sizes => exact fitting.2 more
      · rw [Nat.eq_zero_of_not_pos more]
        exact ⟨A.refl h, stored, none⟩
    have short : sizes.headD 0 ≤ maxElements := by
      cases sizes with
      | nil => exact Nat.zero_le _
      | cons n sizes => exact fitting.1
    have size := Heap.size_repeatMake (Heap.buildArray elem sizes.tail) (sizes.headD 0) #[] h
    unfold Heap.buildArray
    dsimp only
    generalize Heap.repeatMake _ _ _ h = made at slots size
    obtain ⟨onward, stored, all⟩ := slots
    have roomy : A.Roomy made.1.size := A.roomy (by
      rw [size]
      simpa using short)
    obtain ⟨stored, onward', admits⟩ := A.alloc (v := Slot.temp (.array elem) (.array made.2.size)) stored all
      (.inl ⟨rfl, roomy⟩) rfl
    exact ⟨A.trans onward onward', stored, admits⟩
  | _ => exact ⟨A.refl h, stored, admits_zeroed h _⟩

theorem makes_allocArray {sizes : List Int32} {made : Variable × Heap} (stored : A.Stored h)
    (allocated : h.allocArray ty sizes = .ok made) : A.Makes h A.Admits made := by
  obtain ⟨counts, checked, rfl⟩ := ok_of_map allocated
  exact makes_buildArray ty (fitting_of_checkSizes Nat.one_pos checked) stored

/-!
## Machines
-/

variable {m : Machine} {f : Frame Variable} {fs : List (Frame Variable)} {id : VarId}

theorem HoldsFrame.mono (le : A.Onward h k) (holds : A.HoldsFrame h f) : A.HoldsFrame k f :=
  ⟨fun v hv => A.mono le (holds.locals v hv), fun v hv => A.mono le (holds.operands v hv)⟩

theorem HoldsFrame.stores (holds : A.HoldsFrame h f) {g : Frame Variable} (stores : f.Stores v g) (hv : A.Admits h v) :
    A.HoldsFrame h g where
  locals w hw := by
    rcases stores.locals w hw with rfl | hw
    · exact hv
    · exact holds.locals w hw
  operands := stores.operands ▸ holds.operands

theorem holdsFrame_setVar (holds : ∀ f ∈ fs, A.HoldsFrame h f) (hv : A.Admits h v) :
    ∀ f ∈ Frame.setVar id v fs, A.HoldsFrame h f := by
  intro f hf
  obtain ⟨g, hg, stores⟩ := Frame.Stores.of_mem_setVar hf
  exact (holds g hg).stores stores hv

theorem holdsFrame_declareVar (holds : ∀ f ∈ fs, A.HoldsFrame h f) (hv : A.Admits h v) :
    ∀ f ∈ Frame.declareVar v fs, A.HoldsFrame h f := by
  intro f hf
  obtain ⟨g, hg, stores⟩ := Frame.Stores.of_mem_declareVar hf
  exact (holds g hg).stores stores hv

theorem admits_of_findVar? (holds : ∀ f ∈ fs, A.HoldsFrame h f) (found : Frame.findVar? id fs = some v) :
    A.Admits h v := by
  obtain ⟨_, f, hf, mem⟩ := Frame.mem_of_findVar? found
  exact (holds f hf).locals v mem

namespace Holds

theorem withHeap (holds : A.Holds m) (le : A.Onward m.heap k) (stored : A.Stored k) :
    A.Holds { m with heap := k } :=
  ⟨stored, fun f hf => (holds.frames f hf).mono le, fun f hf => (holds.deeper f hf).mono le⟩

theorem allFrames (holds : A.Holds m) : ∀ f ∈ m.allFrames, A.HoldsFrame m.heap f := by
  intro f hf
  rcases List.mem_append.1 hf with hf | hf
  · exact holds.deeper f (List.mem_reverse.1 hf)
  · exact holds.frames f hf

theorem setVar (holds : A.Holds m) (hv : A.Admits m.heap v) : A.Holds (m.setVar id v) := by
  have all : ∀ f ∈ Frame.setVar id v m.allFrames, A.HoldsFrame m.heap f := holdsFrame_setVar holds.allFrames hv
  refine ⟨holds.heap, fun f hf => ?_, fun f hf => ?_⟩
  · exact all f (List.mem_of_mem_drop hf)
  · exact all f (List.mem_of_mem_take (List.mem_reverse.1 hf))

theorem declare (holds : A.Holds m) (hv : A.Admits m.heap v) : A.Holds (m.declare v) := by
  refine ⟨holds.heap, fun f hf => ?_, holds.deeper⟩
  rcases List.mem_append.1 hf with hf | hf
  · exact holds.frames f (List.mem_of_mem_take hf)
  · exact holdsFrame_declareVar (fun f hf => holds.frames f (List.mem_of_mem_drop hf)) hv f hf

theorem modifyFrame (holds : A.Holds m) {g : Frame Variable → Frame Variable}
    (keeps : ∀ f, A.HoldsFrame m.heap f → A.HoldsFrame m.heap (g f)) : A.Holds (m.modifyFrame g) := by
  obtain ⟨_ | ⟨f, fs⟩, _⟩ := m
  · exact holds
  · obtain ⟨own, outer⟩ := List.forall_mem_cons.1 holds.frames
    exact ⟨holds.heap, List.forall_mem_cons.2 ⟨keeps f own, outer⟩, holds.deeper⟩

theorem own (holds : A.Holds m) : A.HoldsFrame m.heap m.own := by
  have frames := holds.frames
  unfold Machine.own
  cases hf : m.frames with
  | nil => exact ⟨nofun, nofun⟩
  | cons f fs =>
    rw [hf] at frames
    exact frames f List.mem_cons_self

end Holds

/-- Is storage within reach of what is admitted? -/
def Reaches (A : Discipline) (h : Heap) : Storage → Prop
  | .var _ => True
  | .cell r _ => ∃ v, A.Admits h v ∧ v.value.storage? = some r

theorem Reaches.read? {storage : Storage} (reaches : A.Reaches m.heap storage) (holds : A.Holds m)
    (read : m.read? storage = some v) : A.Admits m.heap v := by
  cases storage with
  | var id => exact admits_of_findVar? holds.allFrames read
  | cell r position =>
    obtain ⟨w, admits, there⟩ := reaches
    exact A.element holds.heap admits there v (Array.mem_of_getElem? read)

theorem Reaches.write {storage : Storage} (reaches : A.Reaches m.heap storage) (holds : A.Holds m)
    (hv : A.Admits m.heap v) : A.Onward m.heap (m.write storage v).heap ∧ A.Holds (m.write storage v) := by
  cases storage with
  | var id => exact ⟨A.refl _, holds.setVar hv⟩
  | cell r position =>
    obtain ⟨w, admits, there⟩ := reaches
    obtain ⟨stored, onward⟩ := A.write holds.heap admits there hv position
    exact ⟨onward, holds.withHeap onward stored⟩

end Discipline
end Tickwise
