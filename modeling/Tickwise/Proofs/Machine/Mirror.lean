import Tickwise.Machine.Storage
import Tickwise.Proofs.Storage.Mirror
set_option autoImplicit false

/-!
# Mirrored machines

Two machines are alike if their frames hold alike variables at the same positions, one heap mirrors the
other and their natives were invoked alike. Computations are alike if from alike machines they come to alike
machines, with alike outcomes.
-/
namespace Tickwise

theorem rel_isSome {α β : Type} {P : α → β → Prop} {o : Option α} {o' : Option β} (h : Option.Rel P o o') :
    o.isSome = o'.isSome := by
  cases h <;> rfl

theorem forall₂_find? {α β : Type} {P : α → β → Prop} {p : α → Bool} {q : β → Bool} {as : List α}
    {bs : List β} (h : as.Forall₂ P bs) (same : ∀ a b, P a b → p a = q b) :
    Option.Rel P (as.find? p) (bs.find? q) := by
  induction h with
  | nil => exact .none
  | @cons a b as bs hp _ ih =>
    rw [List.find?_cons, List.find?_cons, same a b hp]
    cases q b with
    | true => exact .some hp
    | false => exact ih

/-- The same position, with variables that are pairwise as `A` says. -/
structure Frame.Alike {μ ν : Type} (A : μ → ν → Prop) (f : Frame μ) (g : Frame ν) : Prop where
  node : f.node = g.node
  state : f.state = g.state
  index : f.index = g.index
  operands : f.operands.Forall₂ A g.operands
  locals : f.locals.Forall₂ A g.locals
  scope : f.scope = g.scope
  call : f.call = g.call
  live : f.live = g.live

/-- Frames that are pairwise alike under a relation of references. -/
abbrev Frames.Alike (R : Ref → Ref → Prop) : List (Frame Variable) → List (Frame Variable) → Prop :=
  List.Forall₂ (Frame.Alike (Slot.Alike R))

namespace Frame

variable {R : Ref → Ref → Prop} {f g : Frame Variable} {fs gs : List (Frame Variable)} {v w : Variable}

theorem alike_start (node : NodeId) : (start node).Alike (Slot.Alike R) (start node) :=
  ⟨rfl, rfl, rfl, .nil, .nil, rfl, rfl, rfl⟩

theorem alike_ofCall (node : NodeId) {vs ws : List Variable} (params : vs.Forall₂ (Slot.Alike R) ws) :
    (ofCall node vs).Alike (Slot.Alike R) (ofCall node ws) :=
  ⟨rfl, rfl, rfl, .nil, params, rfl, rfl, rfl⟩

theorem Alike.local? (alike : f.Alike (Slot.Alike R) g) (id : VarId) :
    Option.Rel (Slot.Alike R) (f.local? id) (g.local? id) := by
  have same (v w : Variable) (h : v.Alike R w) : decide (v.id = id) = decide (w.id = id) := by rw [h.id]
  exact forall₂_find? (List.rel_reverse alike.locals) same

theorem replaceFirst_alike {p q : Variable → Bool} {vs ws : List Variable} (alike : v.Alike R w)
    (h : vs.Forall₂ (Slot.Alike R) ws) (same : ∀ v w, v.Alike R w → p v = q w) :
    (replaceFirst p v vs).Forall₂ (Slot.Alike R) (replaceFirst q w ws) := by
  induction h with
  | nil => exact .nil
  | cons first rest ih =>
    unfold replaceFirst
    rw [same _ _ first]
    split
    · exact .cons alike rest
    · exact .cons first ih

theorem Alike.setLocal (alike : f.Alike (Slot.Alike R) g) (id : VarId) (new : v.Alike R w) :
    (f.setLocal id v).Alike (Slot.Alike R) (g.setLocal id w) := by
  have same (v w : Variable) (h : v.Alike R w) : decide (v.id = id) = decide (w.id = id) := by rw [h.id]
  have locals := replaceFirst_alike new (List.rel_reverse alike.locals) same
  exact { alike with locals := List.rel_reverse locals }

theorem Alike.declare (alike : f.Alike (Slot.Alike R) g) (new : v.Alike R w) :
    (f.declare v).Alike (Slot.Alike R) (g.declare w) := by
  have same (u u' : Variable) (h : u.Alike R u') : decide (u.id = v.id) = decide (u'.id = w.id) := by
    rw [h.id, new.id]
  have any : f.locals.any (·.id = v.id) = g.locals.any (·.id = w.id) := by
    have found := rel_isSome (forall₂_find? alike.locals same)
    rwa [List.isSome_find?, List.isSome_find?] at found
  unfold Frame.declare
  rw [any]
  split
  · exact { alike with locals := replaceFirst_alike new alike.locals same }
  · exact { alike with locals := List.rel_append alike.locals (.cons new .nil) }

theorem findVar?_alike (h : Frames.Alike R fs gs) (id : VarId) :
    Option.Rel (Slot.Alike R) (findVar? id fs) (findVar? id gs) := by
  induction h with
  | nil => exact .none
  | @cons f g fs gs first _ ih =>
    have own := first.local? id
    unfold findVar?
    generalize f.local? id = o at own
    generalize g.local? id = o' at own
    cases own with
    | some alike => exact .some alike
    | none =>
      change Option.Rel _ (if f.call then none else _) (if g.call then none else _)
      rw [first.call]
      split
      · exact .none
      · exact ih

theorem setVar_alike (h : Frames.Alike R fs gs) (id : VarId) (new : v.Alike R w) :
    Frames.Alike R (setVar id v fs) (setVar id w gs) := by
  induction h with
  | nil => exact .nil
  | cons first rest ih =>
    unfold setVar
    rw [rel_isSome (first.local? id), first.call]
    split
    · exact .cons (first.setLocal id new) rest
    · split
      · exact .cons first rest
      · exact .cons first ih

theorem declareVar_alike (h : Frames.Alike R fs gs) (new : v.Alike R w) :
    Frames.Alike R (declareVar v fs) (declareVar w gs) := by
  induction h with
  | nil => exact .nil
  | cons first rest ih =>
    unfold declareVar
    rw [first.scope]
    split
    · exact .cons (first.declare new) rest
    · exact .cons first ih

end Frame

/-- The same invocation: of one native, in one phase, with arguments that hold the same. -/
structure Invocation.Alike (i j : Invocation) : Prop where
  native : i.native = j.native
  args : ∃ R, i.heap.Alike R j.heap ∧ i.args.Forall₂ (Slot.Alike R) j.args
  phase : i.phase = j.phase
  before : i.before = j.before
  after : i.after = j.after

/-- The same invocations in the same order, and the same reports. -/
structure Journal.Alike (j k : Journal) : Prop where
  invocations : j.invocations.Forall₂ Invocation.Alike k.invocations
  reports : j.reports = k.reports

structure Machine.Alike (R : Ref → Ref → Prop) (m n : Machine) : Prop where
  frames : Frames.Alike R m.frames n.frames
  deeper : Frames.Alike R m.deeper n.deeper
  heap : m.heap.Mirrors R n.heap
  journal : m.journal.Alike n.journal
  budget : m.budget = n.budget
  taken : m.taken = n.taken
  stop : m.stop = n.stop

inductive Interrupt.Alike (R : Ref → Ref → Prop) : Interrupt → Interrupt → Prop
  | suspended : Alike R .suspended .suspended
  | breakTo (label : Option String) : Alike R (.breakTo label) (.breakTo label)
  | continueTo (label : Option String) : Alike R (.continueTo label) (.continueTo label)
  | returned {v w : Variable} (h : v.Alike R w) : Alike R (.returned v) (.returned w)
  | fault (error : RuntimeError) : Alike R (.fault error) (.fault error)
  | crashed (crash : Crash) : Alike R (.crashed crash) (.crashed crash)

theorem Frame.Alike.mono {μ ν : Type} {A B : μ → ν → Prop} {f : Frame μ} {g : Frame ν} (h : f.Alike A g)
    (imp : ∀ a b, A a b → B a b) : f.Alike B g :=
  { h with operands := h.operands.imp imp, locals := h.locals.imp imp }

theorem Frames.Alike.grow {R R' : Ref → Ref → Prop} {fs gs : List (Frame Variable)}
    (h : Frames.Alike R fs gs) (le : R ≤ R') : Frames.Alike R' fs gs :=
  h.imp fun _ _ alike => alike.mono fun _ _ slot => slot.grow le

namespace Machine.Alike

variable {R R' : Ref → Ref → Prop} {m n : Machine} {v w : Variable}

theorem withHeap (alike : m.Alike R n) (le : R ≤ R') {h k : Heap} (mirrors : h.Mirrors R' k) :
    Machine.Alike R' { m with heap := h } { n with heap := k } :=
  { alike with frames := alike.frames.grow le, deeper := alike.deeper.grow le, heap := mirrors }

theorem allFrames (alike : m.Alike R n) : Frames.Alike R m.allFrames n.allFrames :=
  List.rel_append (List.rel_reverse alike.deeper) alike.frames

theorem findVar? (alike : m.Alike R n) (id : VarId) :
    Option.Rel (Slot.Alike R) (m.findVar? id) (n.findVar? id) :=
  Frame.findVar?_alike alike.allFrames id

theorem setVar (alike : m.Alike R n) (id : VarId) (new : v.Alike R w) :
    (m.setVar id v).Alike R (n.setVar id w) := by
  have all := Frame.setVar_alike alike.allFrames id new
  have deeper := List.rel_reverse (List.forall₂_take m.deeper.length all)
  have frames := List.forall₂_drop m.deeper.length all
  have depth := alike.deeper.length_eq
  refine { alike with frames := ?_, deeper := ?_ }
  · change Frames.Alike R _ (List.drop n.deeper.length _)
    rw [← depth]
    exact frames
  · change Frames.Alike R _ (List.take n.deeper.length _).reverse
    rw [← depth]
    exact deeper

theorem declare (alike : m.Alike R n) (new : v.Alike R w) : (m.declare v).Alike R (n.declare w) := by
  have own := List.forall₂_take 1 alike.frames
  have around := Frame.declareVar_alike (List.forall₂_drop 1 alike.frames) new
  exact { alike with frames := List.rel_append own around }

theorem own (alike : m.Alike R n) : m.own.Alike (Slot.Alike R) n.own := by
  have frames := alike.frames
  unfold Machine.own
  generalize m.frames = fs at frames
  generalize n.frames = gs at frames
  cases frames with
  | nil => exact Frame.alike_start 0
  | cons first _ => exact first

theorem modifyFrame (alike : m.Alike R n) {u u' : Frame Variable → Frame Variable}
    (change : ∀ f g, f.Alike (Slot.Alike R) g → (u f).Alike (Slot.Alike R) (u' g)) :
    (m.modifyFrame u).Alike R (n.modifyFrame u') := by
  obtain ⟨frames, deeper, heap, journal, budget, taken, stop⟩ := m
  obtain ⟨frames', deeper', heap', journal', budget', taken', stop'⟩ := n
  have fs : Frames.Alike R frames frames' := alike.frames
  cases fs with
  | nil => exact alike
  | cons first rest => exact { alike with frames := .cons (change _ _ first) rest }

theorem enter? (alike : m.Alike R n) (node : NodeId) :
    Option.Rel (Machine.Alike R) (m.enter? node) (n.enter? node) := by
  have left := alike.deeper
  unfold Machine.enter?
  generalize m.deeper = fs at left
  generalize n.deeper = gs at left
  have fresh : Frames.Alike R (Frame.start node :: m.frames) (Frame.start node :: n.frames) :=
    .cons (Frame.alike_start node) alike.frames
  cases left with
  | nil => exact .some { alike with frames := fresh, deeper := .nil }
  | @cons f g fs gs first rest =>
    simp only [first.node, first.live]
    split
    · split
      · exact .some { alike with frames := .cons first alike.frames, deeper := rest }
      · exact .none
    · exact .some { alike with frames := fresh, deeper := .nil }

theorem placeCallee? (alike : m.Alike R n) (node : NodeId) {vs ws : List Variable}
    (params : vs.Forall₂ (Slot.Alike R) ws) :
    Option.Rel (Machine.Alike R) (m.placeCallee? node vs) (n.placeCallee? node ws) := by
  have left := alike.deeper
  unfold Machine.placeCallee?
  generalize m.deeper = fs at left
  generalize n.deeper = gs at left
  have fresh : Frames.Alike R [Frame.ofCall node vs] [Frame.ofCall node ws] :=
    .cons (Frame.alike_ofCall node params) .nil
  cases left with
  | nil => exact .some { alike with deeper := fresh }
  | @cons f g fs gs first rest =>
    simp only [first.node, first.live]
    split
    · split
      · refine .some { alike with deeper := .cons ?_ rest }
        exact { first with node := rfl, locals := params, scope := rfl, call := rfl, live := rfl }
      · exact .none
    · exact .some { alike with deeper := fresh }

theorem tail (alike : m.Alike R n) : Frames.Alike R m.frames.tail n.frames.tail := by
  have frames := alike.frames
  generalize m.frames = fs at frames
  generalize n.frames = gs at frames
  cases frames with
  | nil => exact .nil
  | cons _ rest => exact rest

theorem suspend (alike : m.Alike R n) : m.suspend.Alike R n.suspend :=
  { alike with frames := alike.tail, deeper := .cons alike.own alike.deeper }

theorem leave (alike : m.Alike R n) : m.leave.Alike R n.leave :=
  { alike with frames := alike.tail, deeper := .nil }

end Machine.Alike

/-- The same variable, or the same position of paired storage. -/
inductive Storage.Alike (R : Ref → Ref → Prop) : Storage → Storage → Prop
  | var (id : VarId) : Alike R (.var id) (.var id)
  | cell {r q : Ref} (paired : R r q) (position : Nat) : Alike R (.cell r position) (.cell q position)

theorem Storage.Alike.grow {R R' : Ref → Ref → Prop} {s t : Storage} (h : s.Alike R t) (le : R ≤ R') :
    s.Alike R' t := by
  cases h with
  | var id => exact .var id
  | cell paired position => exact .cell (le _ _ paired) position

theorem Heap.elements_locked (h : Heap) (ref q : Ref) :
    (h.locked ref).elements q =
      if q = ref ∧ ref < h.size then #[Slot.temp .void (.array ref)] else (h.elements q).map (Slot.locked ref) := by
  rw [elements_eq, elements_eq]
  unfold locked size
  dsimp only
  rw [Array.getElem?_setIfInBounds, Array.getElem?_map, Array.size_map]
  by_cases same : ref = q
  · subst same
    by_cases inside : ref < h.cells.size
    · simp [inside]
    · simp [inside]
  · rw [if_neg same, if_neg fun both => same both.1.symm]
    cases h.cells[q]? <;> simp

namespace Heap.Mirrors

variable {h k : Heap} {R : Ref → Ref → Prop} {v w : Variable} {r q : Ref} (mirrors : h.Mirrors R k)

include mirrors

theorem slot_locked (paired : R r q) (alike : v.Alike R w) : (v.locked r).Alike R (w.locked q) := by
  have value := alike.value
  unfold Slot.locked
  generalize v.value = a at value
  generalize w.value = b at value
  cases value with
  | @object cls r' q' inner =>
    have both := mirrors.eq_iff inner paired
    by_cases same : r' = r
    · dsimp only
      rw [if_pos same, if_pos (both.1 same)]
      exact ⟨alike.name, alike.id, alike.ty, .array paired, alike.label⟩
    · dsimp only
      rw [if_neg same, if_neg (mt both.2 same)]
      exact alike
  | _ => exact alike

theorem locked (paired : R r q) : (h.locked r).Alike R (k.locked q) := by
  intro r' q' also
  have bounds := mirrors.within r q paired
  rw [elements_locked, elements_locked]
  by_cases same : r' = r
  · rw [if_pos ⟨same, bounds.1⟩, if_pos ⟨(mirrors.eq_iff also paired).1 same, bounds.2⟩]
    exact .cons (.temp (.array paired)) .nil
  · have other : ¬ q' = q := mt (mirrors.eq_iff also paired).2 same
    rw [if_neg fun both => same both.1, if_neg fun both => other both.1, Array.toList_map, Array.toList_map,
      List.forall₂_map_left_iff, List.forall₂_map_right_iff]
    exact (mirrors.alike r' q' also).imp fun _ _ alike => mirrors.slot_locked paired alike

theorem storeCrash? {s t : Storage} (storage : s.Alike R t) (ty : Ty) (alike : v.Alike R w) :
    Exec.storeCrash? s ty v h = Exec.storeCrash? t ty w k := by
  cases storage with
  | var id => exact crash?_alike mirrors.alike alike ty
  | cell paired position =>
    unfold Exec.storeCrash?
    dsimp only
    rw [crash?_alike mirrors.alike alike ty, crash?_alike (mirrors.locked paired) (mirrors.slot_locked paired alike) ty]

end Heap.Mirrors

namespace Machine.Alike

variable {R : Ref → Ref → Prop} {m n : Machine} {v w : Variable} {s t : Storage}

theorem read? (alike : m.Alike R n) (storage : s.Alike R t) :
    Option.Rel (Slot.Alike R) (m.read? s) (n.read? t) := by
  cases storage with
  | var id => exact alike.findVar? id
  | cell paired position => exact alike.heap.read? paired position

theorem write (alike : m.Alike R n) (storage : s.Alike R t) (new : v.Alike R w) :
    (m.write s v).Alike R (n.write t w) := by
  cases storage with
  | var id => exact alike.setVar id new
  | cell paired position => exact { alike with heap := alike.heap.write paired position new }

end Machine.Alike
end Tickwise
