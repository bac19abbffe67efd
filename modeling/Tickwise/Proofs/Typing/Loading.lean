import Tickwise.Proofs.Typing.Tags
set_option autoImplicit false

/-!
# Typed executions that are loaded

An execution that was saved and is loaded gets storage of its own, of the same shapes as what was saved. So what a
host comes to from arguments of the types of the parameters stays typed, and where natives return and keep to their
types no tick of it crashes.
-/
namespace Tickwise

def Shapes.Carries (S T : Shapes) (r q : Ref) : Prop := ∀ shape, S.at? r = some shape → T.at? q = some shape

/-- Shapes of the same classes, with slots marked in the same way. -/
structure MarkedShapes.Kin (S T : MarkedShapes) : Prop where
  classes : T.class? = S.class?
  marking : T.marking = S.marking

theorem MarkedShapes.Kin.le {S T T' : MarkedShapes} (kin : S.Kin T) (le : T.Le T') : S.Kin T' :=
  ⟨le.classes.trans kin.classes, le.marking.trans kin.marking⟩

theorem Shapes.Has.alike {S T : Shapes} {ty : Ty} {a b : Value Ref} (has : S.Has ty a)
    (classes : T.class? = S.class?) (alike : a.Alike (S.Carries T) b) : T.Has ty b := by
  cases ty with
  | void | null =>
    cases has
    cases alike
    rfl
  | bool | int | float | string =>
    obtain ⟨_, rfl⟩ := has
    cases alike
    exact ⟨_, rfl⟩
  | array elem =>
    rcases has with rfl | ⟨r, rfl, at_⟩
    · cases alike
      exact .inl rfl
    · cases alike with
      | array carries => exact .inr ⟨_, rfl, carries _ at_⟩
  | named c =>
    rcases has with rfl | ⟨r, cls, rfl, known, at_⟩
    · cases alike
      exact .inl rfl
    · cases alike with
      | object _ carries => exact .inr ⟨_, cls, rfl, (congrFun classes c).trans known, carries _ at_⟩

theorem Shapes.Has.shape {S : Shapes} {ty : Ty} {a : Value Ref} {r : Ref} (has : S.Has ty a)
    (holds : a.storage? = some r) : ∃ shape, S.at? r = some shape := by
  cases ty with
  | void | null =>
    cases has
    cases holds
  | bool | int | float | string =>
    obtain ⟨_, rfl⟩ := has
    cases holds
  | array elem =>
    rcases has with rfl | ⟨_, rfl, at_⟩
    · cases holds
    · cases holds
      exact ⟨_, at_⟩
  | named c =>
    rcases has with rfl | ⟨_, cls, rfl, _, at_⟩
    · cases holds
    · cases holds
      exact ⟨_, at_⟩

namespace MarkedShapes

variable {S T : MarkedShapes} {ty : Ty} {v w : Variable} {h k : Heap} {shape : Shape} {D : Declarations}

theorem HasSlot.alike (hv : S.HasSlot ty v) (kin : S.Kin T) (alike : v.Alike (S.Carries T.toShapes) w) :
    T.HasSlot ty w := by
  refine ⟨?_, hv.2.imp (fun unassigned => ?_) fun has => has.alike kin.classes alike.value⟩
  · rw [kin.marking, ← alike.ty]
    exact hv.1
  · have value := alike.value
    rw [unassigned] at value
    generalize w.value = b at value
    cases value
    rfl

theorem HasTemp.alike (hv : S.HasTemp ty v) (kin : S.Kin T) (alike : v.Alike (S.Carries T.toShapes) w) :
    T.HasTemp ty w := by
  refine ⟨?_, hv.2.alike kin.classes alike.value⟩
  rw [kin.marking, ← alike.ty]
  exact hv.1

theorem HasLocal.alike (hv : S.HasLocal D v) (kin : S.Kin T) (alike : v.Alike (S.Carries T.toShapes) w) :
    T.HasLocal D w := by
  obtain ⟨ty, declared, slot⟩ := hv
  exact ⟨ty, alike.id ▸ declared, slot.alike kin alike⟩

theorem HasFrame.alike {f g : Frame Variable} (hf : S.HasFrame D f) (kin : S.Kin T)
    (alike : f.Alike (Slot.Alike (S.Carries T.toShapes)) g) : T.HasFrame D g where
  locals w hw := by
    obtain ⟨v, hv, same⟩ := forall₂_exists_left alike.locals hw
    exact (hf.locals v hv).alike kin same
  operands w hw := by
    obtain ⟨v, hv, same⟩ := forall₂_exists_left alike.operands hw
    obtain ⟨ty, temp⟩ := hf.operands v hv
    exact ⟨ty, temp.alike kin same⟩

theorem Fills.alike {slots : Array Variable} {ws : List Variable} (fills : S.Fills shape slots) (kin : S.Kin T)
    (alike : slots.toList.Forall₂ (Slot.Alike (S.Carries T.toShapes)) ws) : T.Fills shape ws.toArray := by
  refine ⟨fun k w hw => ?_, fun cls hc => ?_⟩
  · have entry := forall₂_getElem? alike k
    rw [List.getElem?_toArray] at hw
    rw [hw, Array.getElem?_toList] at entry
    generalize found : slots[k]? = e at entry
    cases entry with
    | some same =>
      obtain ⟨ty, slot, has⟩ := fills.1 k _ found
      exact ⟨ty, slot, has.alike kin same⟩
  · rw [List.size_toArray, ← alike.length_eq, Array.length_toList]
    exact fills.2 cls hc

/-!
## Planting
-/

/-- Planted variables are alike, and their storage has the shapes of what they were taken from. -/
def Plants (S T : MarkedShapes) (vs : List Variable) (r : List Variable × Heap) : Prop :=
  ∃ T' : MarkedShapes, T.Le T' ∧ T'.Describes r.2 ∧ vs.Forall₂ (Slot.Alike (S.Carries T'.toShapes)) r.1

theorem alike_mono {T' : MarkedShapes} (le : T.Le T') (alike : v.Alike (S.Carries T.toShapes) w) :
    v.Alike (S.Carries T'.toShapes) w :=
  alike.mono fun _ _ _ _ carries shape at_ => le.shapes (carries shape at_)

theorem plants_mapThread {depth : Nat} {vs : List Variable} {ts : List Tree} (shown : vs.Forall₂ (h.Shows depth) ts)
    (each : ∀ v ∈ vs, ∀ t, h.Shows depth v t → ∀ {T : MarkedShapes} {k : Heap}, S.Kin T → T.Describes k →
      S.Plants T [v] ([(Heap.plant t k).1], (Heap.plant t k).2))
    (kin : S.Kin T) (described : T.Describes k) : S.Plants T vs (Heap.mapThread Heap.plant ts k) := by
  induction shown generalizing T k with
  | nil => exact ⟨T, .refl T, described, .nil⟩
  | @cons v t vs ts shows _ ih =>
    obtain ⟨first, rest⟩ := List.forall_mem_cons.1 each
    obtain ⟨T₁, le₁, described₁, own⟩ := first t shows kin described
    obtain ⟨T₂, le₂, described₂, others⟩ := ih rest (kin.le le₁) described₁
    have own : v.Alike (S.Carries T₂.toShapes) (Heap.plant t k).1 := alike_mono le₂ (List.forall₂_cons.1 own).1
    exact ⟨T₂, le₁.trans le₂, described₂, .cons own others⟩

/-- What is planted of the slots of an array or object is stored together, in the shape that these had. -/
theorem Describes.plants_storage {depth : Nat} {r : Ref} {us : List Tree} (stored : S.Describes h)
    (at_ : S.at? r = some shape) (entries : (h.elements r).toList.Forall₂ (h.Shows depth) us)
    (each : ∀ v ∈ (h.elements r).toList, ∀ t, h.Shows depth v t → ∀ {T : MarkedShapes} {k : Heap}, S.Kin T →
      T.Describes k → S.Plants T [v] ([(Heap.plant t k).1], (Heap.plant t k).2))
    (kin : S.Kin T) (described : T.Describes k) :
    ∃ T' : MarkedShapes, T.Le T' ∧
      T'.Describes ((Heap.plant.plantAll us k).2.alloc (Heap.plant.plantAll us k).1.toArray).2 ∧
      S.Carries T'.toShapes r (Heap.plant.plantAll us k).2.size := by
  obtain ⟨T₁, le, described₁, same⟩ := plants_mapThread entries each kin described
  rw [Heap.plantAll_eq]
  refine ⟨_, le.trans (described₁.le_alloc shape), described₁.alloc ((stored.fills at_).alike (kin.le le) same), ?_⟩
  intro shape' at'
  cases at_.symm.trans at'
  exact T₁.alloc_at _ shape

theorem Describes.plants {depth : Nat} {t : Tree} (stored : S.Describes h) (shows : h.Shows depth v t)
    (typed : ∃ ty, S.HasSlot ty v) (kin : S.Kin T) (described : T.Describes k) :
    S.Plants T [v] ([(Heap.plant t k).1], (Heap.plant t k).2) := by
  induction depth generalizing v t T k with
  | zero => exact shows.elim
  | succ depth ih =>
    obtain ⟨⟨name, id, ty, value, label⟩⟩ := t
    obtain ⟨own, _, has⟩ := typed
    have alike : v.Alike _ ⟨name, id, ty, value, label⟩ := shows
    obtain ⟨names, ids, types, values, labels⟩ := alike
    have shaped {r : Ref} (holds : v.value.storage? = some r) : ∃ shape, S.at? r = some shape := by
      rcases has with unassigned | has
      · rw [unassigned] at holds
        cases holds
      · exact has.shape holds
    generalize held : v.value = a at values shaped
    cases values with
    | array entries =>
      obtain ⟨shape, at_⟩ := shaped rfl
      obtain ⟨T', le, described', carries⟩ := stored.plants_storage at_ entries
        (fun e he _ shows _ _ => ih shows ((stored.fills at_).slots e he)) kin described
      exact ⟨T', le, described', .cons ⟨names, ids, types, held ▸ .array carries, labels⟩ .nil⟩
    | object cls entries =>
      obtain ⟨shape, at_⟩ := shaped rfl
      obtain ⟨T', le, described', carries⟩ := stored.plants_storage at_ entries
        (fun e he _ shows _ _ => ih shows ((stored.fills at_).slots e he)) kin described
      exact ⟨T', le, described', .cons ⟨names, ids, types, held ▸ .object cls carries, labels⟩ .nil⟩
    | _ =>
      refine ⟨T, .refl T, described, .cons ⟨names, ids, types, ?_, labels⟩ .nil⟩
      rw [held]
      constructor

end MarkedShapes

/-!
## Frames
-/

section

variable {S T : MarkedShapes} {D : Declarations} {p : Program} {i : Instr} {f g : Frame Variable}
  {fs gs : List (Frame Variable)}

theorem Frame.Collects.alike {es : List Instr} (hf : f.Collects S es) (kin : S.Kin T)
    (alike : f.Alike (Slot.Alike (S.Carries T.toShapes)) g) : g.Collects T es := by
  refine ⟨fun k w hw => ?_, ?_, ?_⟩
  · have entry := forall₂_getElem? alike.operands k
    rw [hw] at entry
    generalize found : f.operands[k]? = e at entry
    cases entry with
    | some same =>
      obtain ⟨e, he, temp⟩ := hf.values k _ found
      exact ⟨e, he, temp.alike kin same⟩
  · rw [← alike.state, ← alike.index, ← alike.operands.length_eq]
    exact hf.index
  · rw [← alike.state, ← alike.operands.length_eq]
    exact hf.all

theorem Frame.Sound.alike {form : Form Instr} (hf : f.Sound S form) (kin : S.Kin T)
    (alike : f.Alike (Slot.Alike (S.Carries T.toShapes)) g) : g.Sound T form := by
  unfold Frame.Sound at hf ⊢
  split
  · exact hf.alike kin alike
  · exact hf.alike kin alike
  · exact fun behind => (hf (alike.state ▸ behind)).alike kin alike
  · trivial

theorem Along.alike {A : Variable → Variable → Prop} {Q Q' : Instr → Frame Variable → Prop}
    (each : ∀ i f g, f.Alike A g → Q i f → Q' i g) (h : Along p Q i fs) (alike : fs.Forall₂ (Frame.Alike A) gs) :
    Along p Q' i gs := by
  induction alike generalizing i with
  | nil => trivial
  | @cons f g fs gs same _ ih =>
    obtain ⟨own, beneath⟩ := h
    refine ⟨each i f g same own, ?_⟩
    rw [← same.state, ← same.index]
    cases waits : i.waiting f.state f.index with
    | child c =>
      rw [waits] at beneath
      exact ih beneath
    | callee id =>
      rw [waits] at beneath
      exact fun g hg => ih (beneath g hg)
    | _ => trivial

theorem Fits.alike {A : Variable → Variable → Prop} (h : Fits p i fs) (alike : fs.Forall₂ (Frame.Alike A) gs) :
    Fits p i gs := by
  induction alike generalizing i with
  | nil => trivial
  | @cons f g fs gs same rest ih =>
    obtain ⟨node, live, state, beneath⟩ := h
    refine ⟨same.node ▸ node, same.live ▸ live, same.state ▸ state, ?_⟩
    rw [← same.state, ← same.index]
    cases waits : i.waiting f.state f.index with
    | child c =>
      rw [waits] at beneath
      exact ih beneath
    | callee id =>
      rw [waits] at beneath
      obtain ⟨g, found, call, beneath⟩ := beneath
      have head : gs.head?.any Frame.call = fs.head?.any Frame.call := by
        cases rest with
        | nil => rfl
        | cons first _ => exact first.call.symm
      exact ⟨g, found, head.trans call, ih beneath⟩
    | _ =>
      rw [waits] at beneath
      subst beneath
      cases rest
      rfl

end

/-- The execution with all frames marked as restored. -/
def Execution.marked {ν : Type} (x : Execution ν) : Execution ν := { x with frames := x.frames.map Frame.marked }

theorem Execution.marked_of_live {x : Execution Variable} (live : ∀ f ∈ x.frames, f.live = true) : x.marked = x := by
  unfold marked
  rw [Frame.map_marked_of_live live]

theorem Execution.reread_marked (x : Execution Variable) : x.marked.reread = x.reread := by
  unfold reread unmarked marked
  rw [List.map_map]
  rfl

namespace Program

variable {p : Program} {D : Declarations} {S T : MarkedShapes} {f : Function} {x y : Execution Variable}
  {s s' : Session}

theorem Ready.reread {A : Variable → Variable → Prop} (h : p.Ready f x) (alike : x.reread.Alike A y) :
    p.Ready f y.marked where
  running := alike.status ▸ h.running
  entry := alike.entry ▸ h.entry
  program := alike.programId.symm.trans h.program
  fits := h.fits.alike (alike.frames_marked (live_of_fits h.fits))

theorem Holds.reload (h : p.Holds D S f x s) (kin : S.Kin T) (described : T.Describes s'.heap)
    (alike : x.reread.Alike (Slot.Alike (S.Carries T.toShapes)) y) : p.Holds D T f y.marked s' := by
  have frames := alike.frames_marked (live_of_fits h.fits)
  exact {
    toReady := h.toReady.reread alike
    classes := kin.classes.trans h.classes
    heap := described
    frames := fun g hg => by
      obtain ⟨f, hf, same⟩ := forall₂_exists_left frames hg
      exact (h.frames f hf).alike kin same
    resumes := h.resumes.alike (fun _ _ _ same sound => sound.alike kin same) frames
    result := by
      have none : x.reread.result = none := h.result
      have result := alike.result
      rw [none] at result
      generalize found : y.result = r at result
      cases result
      exact found }

theorem Rests.reload (h : p.Rests S x s) (kin : S.Kin T) (described : T.Describes s'.heap)
    (alike : x.reread.Alike (Slot.Alike (S.Carries T.toShapes)) y) : p.Rests T y.marked s' where
  done := alike.status ▸ h.done
  program := alike.programId.symm.trans h.program
  heap := described
  frames := by
    have frames := alike.frames_marked (by rw [h.frames]; nofun)
    rw [h.frames] at frames
    exact List.forall₂_nil_left_iff.1 frames
  result w hw := by
    have result := alike.result
    rw [show y.result = some w from hw] at result
    generalize found : x.reread.result = r at result
    cases result with
    | some same =>
      obtain ⟨ty, temp⟩ := h.result _ found
      exact ⟨ty, temp.alike kin same⟩

theorem Stands.reload {bytes : List UInt8} {loaded : Heap} (h : p.Stands D S x.marked s)
    (save : (x.save s.heap).toExcept = .ok bytes) (load : p.load bytes s'.heap = .ok (y, loaded)) :
    ∃ T : MarkedShapes, T.marking = S.marking ∧ p.Stands D T y.marked { s' with heap := loaded } := by
  have readable := Execution.readable_of_load save load
  obtain ⟨noError, rfl⟩ := Codec.ok_of_toExcept save
  obtain ⟨t, shown, run⟩ := (p.readsBack_execution s.heap x).accepts noError readable []
  rw [List.append_nil] at run
  unfold Program.load at load
  rw [run] at load
  cases load
  rw [← Execution.reread_marked] at shown
  obtain ⟨stored, typed⟩ := h.slots
  rw [← Execution.slots_reread] at typed
  have kin : S.Kin ⟨⟨S.class?, fun _ => none⟩, S.marking⟩ := ⟨rfl, rfl⟩
  obtain ⟨T, le, described, slots⟩ := MarkedShapes.plants_mapThread shown.slots
    (fun v hv t shows _ _ => stored.plants shows (typed v hv)) kin ⟨nofun, nofun⟩
  rw [Heap.slots_plantExecution] at described slots
  have positions := shown.comp (Heap.alike_plantExecution t s'.heap) (D := fun _ _ => True) fun _ _ _ _ _ => trivial
  have alike := positions.of_slots slots
  refine ⟨T, le.marking, ?_⟩
  rcases h with ⟨f, holds⟩ | rests
  · exact .inl ⟨f, holds.reload (kin.le le) described alike⟩
  · exact .inr (rests.reload (kin.le le) described alike)

theorem marked_restore (p : Program) (x : Execution Variable) : (p.restore x).2.marked = x.marked := by
  have marks := p.map_marked_restore x
  rcases result : p.restore x with ⟨error, y⟩
  rw [result] at marks
  rw [frames_restore result]
  unfold Execution.marked
  rw [← marks]

theorem tick_eq_or_refused (p : Program) (x : Execution Variable) (s : Session) (running : x.status.isOver = false)
    (found : p.function? x.entry = some f) (own : x.programId = p.id) : p.tick x s = p.tick x.marked s ∨
      ∃ error y, p.restore x = (some error, y) ∧
        p.tick x s = fail y s [.notRestored error] ⟨.notRestored, f.span⟩ := by
  cases restored : x.isRestored with
  | true => exact .inl (by rw [Execution.marked_of_live (List.all_eq_true.1 restored)])
  | false =>
    rcases result : p.restore x with ⟨_ | error, y⟩
    · have live := live_of_restore result
      have marked := p.marked_restore x
      rw [result, Execution.marked_of_live live] at marked
      subst marked
      have first : p.prepare x s = .inr (f, x.marked) :=
        Prepares.eq (.accepted running found own restored result)
      have again : p.prepare x.marked s = .inr (f, x.marked) :=
        Prepares.eq (.goes running found own (List.all_eq_true.2 live))
      unfold tick
      rw [first, again]
      exact .inl rfl
    · have refused : p.prepare x s = .inl (fail y s [.notRestored error] ⟨.notRestored, f.span⟩) :=
        Prepares.eq (.refused running found own restored result)
      unfold tick
      rw [refused]
      exact .inr ⟨error, y, rfl, rfl⟩

theorem Ready.tick_marked (h : p.Ready f x.marked) (budget : Nat) (s : Session) :
    ((p.withSteps budget).tick x s).execution.status.isOver = true ∨
      p.Ready f ((p.withSteps budget).tick x s).execution.marked := by
  rcases (p.withSteps budget).tick_eq_or_refused x s h.running h.entry h.program with same | ⟨error, y, _, tick⟩
  · obtain ⟨o, m, run⟩ := Executes.total p p.env.limits.maxFrames f.body
      ((p.machine x.marked s).still.more (max budget 1) 0)
    rw [same, h.tick run]
    by_cases ho : o = .error .suspended
    · subst ho
      have ready := (h.next run).1
      rw [← Execution.marked_of_live (live_of_fits ready.fits)] at ready
      exact .inr ready
    · exact .inl (conclude_of_running ho m).2
  · rw [tick]
    exact .inl rfl

theorem Ready.reload {bytes : List UInt8} {h k k' : Heap} (ready : p.Ready f x.marked)
    (save : (x.save h).toExcept = .ok bytes) (load : p.load bytes k = .ok (y, k')) : p.Ready f y.marked := by
  obtain ⟨_, _, again, twins, _⟩ := (Execution.readable_of_load save load).load save k
  cases again.symm.trans load
  rw [← Execution.reread_marked] at twins
  exact ready.reread twins

theorem Stands.marked (h : p.Stands D S x s) : x.marked = x := by
  refine Execution.marked_of_live ?_
  rcases h with ⟨f, holds⟩ | rests
  · exact live_of_fits holds.fits
  · rw [rests.frames]
    nofun

theorem Stands.tick_marked (h : p.Stands D S x.marked s) (hp : p.Keeps D S.marking) (budget : Nat) :
    ∃ S', S.Le S' ∧ p.Stands D S' ((p.withSteps budget).tick x s).execution.marked
      ((p.withSteps budget).tick x s).session := by
  rcases h with ⟨f, holds⟩ | rests
  · rcases (p.withSteps budget).tick_eq_or_refused x s holds.running holds.entry holds.program with
      same | ⟨error, y, refused, tick⟩
    · obtain ⟨S', le, stands⟩ := holds.tick hp budget
      rw [same, stands.marked]
      exact ⟨S', le, stands⟩
    · have kept := frames_restore refused
      rw [tick]
      refine ⟨S, .refl S, .inr ⟨rfl, ?_, holds.heap, rfl, fun v hv => ?_⟩⟩
      · rw [kept]
        exact holds.program
      · rw [kept] at hv
        cases Eq.trans (Eq.symm hv) holds.result
  · obtain ⟨execution, session⟩ := tick_of_over (x := x) rests.done (p.withSteps budget) s
    rw [execution, session]
    exact ⟨S, .refl S, .inr rests⟩

theorem Holds.crash_eq_none (h : p.Holds D S f x s) (hp : p.Keeps D S.marking) (returns : ¬ D.Crashes) (budget : Nat) :
    ((p.withSteps budget).tick x s).crash = none := by
  obtain ⟨o, m, run⟩ := Executes.total (p.withSteps budget) p.env.limits.maxFrames f.body
    ((p.withSteps budget).machine x s)
  obtain ⟨S', _, typed, ends⟩ := run.sound (hp.withSteps budget) (h.before hp.typed budget)
  rw [tick_of_prepare (h.prepare s budget) run]
  change crash? f o m.heap = none
  rcases o with e | v
  · cases e with
    | returned v => exact typed.heap.crash?_eq_none (.inr ends)
    | crashed c => exact absurd ends returns
    | _ => rfl
  · rfl

/-- What a host can come to from an execution in a session: it ticks it, with a budget for each tick, asks it to stop,
restores it, be it accepted or refused, or saves it and loads it in any session. -/
inductive Travels (p : Program) (origin : Execution Variable → Session → Prop) :
    Execution Variable → Session → Prop
  | origin {x : Execution Variable} {s : Session} (h : origin x s) : Travels p origin x s
  | tick {x : Execution Variable} {s : Session} (budget : Nat) (h : Travels p origin x s) :
      Travels p origin ((p.withSteps budget).tick x s).execution ((p.withSteps budget).tick x s).session
  | stop {x : Execution Variable} {s : Session} (h : Travels p origin x s) : Travels p origin x.requestStop s
  | restore {x : Execution Variable} {s : Session} (h : Travels p origin x s) : Travels p origin (p.restore x).2 s
  | reload {x y : Execution Variable} {s s' : Session} {bytes : List UInt8} {loaded : Heap}
      (h : Travels p origin x s) (save : (x.save s.heap).toExcept = .ok bytes)
      (load : p.load bytes s'.heap = .ok (y, loaded)) : Travels p origin y { s' with heap := loaded }

theorem Travels.ready (h : p.Travels (fun x _ => p.Starts x) x s) :
    x.status.isOver = true ∨ ∃ f, p.Ready f x.marked := by
  induction h with
  | origin starts =>
    obtain ⟨id, f, params, found, rfl⟩ := starts.begin
    exact .inr ⟨f, rfl, found, rfl, fits_start p f.body _ rfl rfl rfl⟩
  | @tick x s budget _ ih =>
    rcases ih with done | ⟨f, ready⟩
    · exact .inl (over_tick done ..)
    · exact (ready.tick_marked budget s).imp_right fun ready => ⟨f, ready⟩
  | stop _ ih => exact ih.imp_right fun ⟨f, ready⟩ => ⟨f, ready.running, ready.entry, ready.program, ready.fits⟩
  | @restore x s _ ih =>
    have status : (p.restore x).2.status = x.status := (p.entry_restore (Prod.eta (p.restore x)).symm).2.1
    rw [p.marked_restore x, status]
    exact ih
  | @reload x y s s' bytes loaded _ save load ih =>
    rcases ih with done | ⟨f, ready⟩
    · obtain ⟨_, _, again, twins, _⟩ := (Execution.readable_of_load save load).load save s'.heap
      cases again.symm.trans load
      exact .inl (twins.status ▸ done)
    · exact .inr ⟨f, ready.reload save load⟩

theorem Travels.stands (hp : p.Keeps D .loose) (h : p.Travels p.Begins x s) :
    ∃ S, p.Keeps D S.marking ∧ p.Stands D S x.marked s := by
  induction h with
  | origin begins =>
    obtain ⟨S, keeps, stands⟩ := Runs.stands hp (.start begins)
    exact ⟨S, keeps, stands.marked.symm ▸ stands⟩
  | tick budget _ ih =>
    obtain ⟨S, keeps, stands⟩ := ih
    obtain ⟨S', le, stands⟩ := stands.tick_marked keeps budget
    exact ⟨S', keeps.mono le, stands⟩
  | stop _ ih =>
    obtain ⟨S, keeps, stands⟩ := ih
    exact ⟨S, keeps, stands.stop⟩
  | @restore x s _ ih =>
    obtain ⟨S, keeps, stands⟩ := ih
    exact ⟨S, keeps, (p.marked_restore x).symm ▸ stands⟩
  | reload _ save load ih =>
    obtain ⟨S, keeps, stands⟩ := ih
    obtain ⟨T, marking, stands⟩ := stands.reload save load
    exact ⟨T, marking ▸ keeps, stands⟩

theorem Travels.crash_eq_none {id source : String} {env : Environment} (compiled : ofSource id env source = .ok p)
    (natives : ∀ f ∈ p.env.natives.natives, f.KeepsTypes p.class? ∧ f.Returns p.class?)
    (h : p.Travels p.Begins x s) (budget : Nat) : ((p.withSteps budget).tick x s).crash = none := by
  obtain ⟨D, hp⟩ := keeps_ofTokens compiled fun f hf => (natives f hf).1.loose
  have returns : ¬ D.Crashes := by
    rintro ⟨id, f, known, fails⟩
    rw [← hp.typed.natives] at known
    rw [show D.class? = p.class? from (funext hp.typed.classes).symm] at fails
    exact fails (natives f (List.mem_of_getElem? known)).2
  obtain ⟨S, keeps, ⟨f, holds⟩ | rests⟩ := h.stands hp
  · rcases (p.withSteps budget).tick_eq_or_refused x s holds.running holds.entry holds.program with
      same | ⟨error, y, _, tick⟩
    · rw [same]
      exact holds.crash_eq_none keeps returns budget
    · rw [tick]
      rfl
  · exact crash_of_over (x := x) rests.done _ s

end Program
end Tickwise
