import Tickwise.Proofs.Codec.Execution
import Tickwise.Proofs.Sight.Executions
import Tickwise.Proofs.Typing.Visits
set_option autoImplicit false

/-!
# Runs with variables in sight

All that a host can come to has variables in sight: whatever acts in a tick is an instruction of the program, with
nothing beneath its frame, and the variables that it accesses are declared in the frames around it or bypassed.
Marks have no part in that, so it stays so in what is saved and loaded.
-/
namespace Tickwise

open Exec Tickwise.Frame

/-- While `root` executes, another instruction does something by itself on a machine: without a frame, at a
position of its frame, or with the value of a part. -/
inductive Acts (p : Program) (depth : Nat) (root : Instr) (m₀ : Machine) : Instr → Machine → Prop
  | leaf {room : Nat} {i : Instr} {m : Machine} (visits : Visits p depth root m₀ room i m)
      (whole : i.isLeaf = true) : Acts p depth root m₀ i m
  | own {room : Nat} {i : Instr} {m inside m' : Machine} {action : Exec (Option Variable)}
      (visits : Visits p depth root m₀ (room + 1) i m) (parts : i.isLeaf = false)
      (entered : m.enter? i.id = some inside) (passes : Passes p room i inside m')
      (move : i.move p m'.own = .act action) : Acts p depth root m₀ i m'
  | value {room : Nat} {i c : Instr} {m inside m' m'' : Machine} {v : Variable}
      {follow : Except Interrupt Variable → Exec (Option Variable)}
      (visits : Visits p depth root m₀ (room + 1) i m) (entered : m.enter? i.id = some inside)
      (passes : Passes p room i inside m') (move : i.move p m'.own = .run c follow)
      (ended : exec p room c m' = (.ok v, m'')) : Acts p depth root m₀ i m''

/-- Nothing is beneath the frames around an instruction, and the variables that it accesses are in sight. -/
structure Machine.Sights (p : Program) (i : Instr) (m : Machine) : Prop where
  contains : p.Contains i
  rest : m.deeper = []
  sight : i.InSight p m.frames

variable {p : Program} {depth room : Nat} {root i c : Instr} {m m' m₀ : Machine}

theorem Instr.isLeaf_of_run {f : Frame Variable} {follow : Except Interrupt Variable → Exec (Option Variable)}
    (move : i.move p f = .run c follow) : i.isLeaf = false := by
  obtain ⟨n, span, form⟩ := i
  cases form with
  | empty | breakTo | continueTo | literal | new => cases move
  | ret value =>
    cases value with
    | none => cases move
    | some value => rfl
  | load place =>
    obtain ⟨root, name, _ | ⟨access, path⟩, ty⟩ := place
    · have none : itemAt? ([] : List Instr) f.index = none := by
        unfold itemAt?
        split <;> rfl
      change Move.collect [] f.index _ = _ at move
      unfold Move.collect at move
      rw [none] at move
      cases move
    · rfl
  | _ => rfl

theorem Waiting.atRest_of_collect {es : List Instr} {index : Int} {afterwards action : Exec (Option Variable)}
    (h : Move.collect es index afterwards = .act action) : (onEntry es index).AtRest := by
  unfold Move.collect at h
  split at h
  case h_1 => cases h
  case h_2 none =>
    rw [onEntry_of_none none]
    trivial

theorem Instr.atRest_of_act {f : Frame Variable} {place : Place Instr} {action : Exec (Option Variable)}
    (hp : i.place? = some place) (move : i.move p f = .act action) : (i.waiting f.state f.index).AtRest := by
  obtain ⟨n, span, form⟩ := i
  cases form with
  | load | step =>
    generalize f.state = state
    cases state with
    | zero => exact Waiting.atRest_of_collect move
    | succ => trivial
  | store place op ty value =>
    change Move.ofStore span place op ty value f = _ at move
    unfold Move.ofStore at move
    split at move
    case isTrue start =>
      rw [start]
      exact Waiting.atRest_of_collect move
    case isFalse => cases move
  | _ => cases hp

theorem Passes.inhabits (hp : p.Sighted) (h : Passes p room i m m') (inside : m.Inhabits p i) : m'.Inhabits p i := by
  induction h with
  | here => exact inside
  | next first _ ih => exact ih ((turn_eq_iff.1 first).inhabits hp (hp.beneath room) inside)

theorem Visits.reaches (hp : p.Sighted) (start : m₀.Reaches p root) (h : Visits p depth root m₀ room i m) :
    m.Reaches p i := by
  induction h with
  | root => exact start
  | part _ entered passes move ih =>
    exact (passes.inhabits hp (ih.enter (Instr.isLeaf_of_run move) entered)).reaches move

theorem Acts.sights {place : Place Instr} (hp : p.Sighted) (start : m₀.Reaches p root) (h : Acts p depth root m₀ i m)
    (accesses : i.place? = some place) : m.Sights p i := by
  cases h with
  | leaf visits whole =>
    obtain ⟨contains, _, stacked⟩ := visits.reaches hp start
    cases hd : m.deeper with
    | nil =>
      rw [hd] at stacked
      exact ⟨contains, hd, stacked.1⟩
    | cons f rest =>
      -- A leaf has no frame that it could have left behind.
      rw [hd] at stacked
      have parts := stacked.1.parts
      rw [whole] at parts
      cases parts
  | own visits parts entered passes move =>
    have inside := passes.inhabits hp ((visits.reaches hp start).enter parts entered)
    refine ⟨inside.contains, inside.fits.eq_nil_of_atRest (Instr.atRest_of_act accesses move), ?_⟩
    rw [Machine.frames_eq inside.framed]
    exact inside.placed.sight
  | @value room _ c _ _ m₁ _ v _ visits entered passes move ended =>
    have inside := passes.inhabits hp ((visits.reaches hp start).enter (Instr.isLeaf_of_run move) entered)
    have beneath := hp.beneath room
    have left := beneath.leaves _ _ _ ended (inside.reaches move).fits
    refine ⟨inside.contains, left.clears nofun, ?_⟩
    have sight := inside.placed.sight
    rw [← Machine.frames_eq inside.framed] at sight
    exact sight.keep (beneath.keeps _ _ _ ended)

namespace Frame.Resembles

variable {f g : Frame Variable} {fs gs : List (Frame Variable)}

theorem of_marked (same : fs.map Frame.marked = gs.map Frame.marked) : List.Forall₂ Frame.Resembles fs gs := by
  have marks : List.Forall₂ Eq (fs.map Frame.marked) (gs.map Frame.marked) := by rw [List.forall₂_eq_eq_eq, same]
  refine (List.forall₂_map_left_iff.1 (List.forall₂_map_right_iff.1 marks)).imp fun f g eq => ?_
  obtain ⟨⟩ := f
  obtain ⟨⟩ := g
  cases eq
  exact ⟨rfl, rfl, rfl, rfl, rfl, rfl, id, id⟩

theorem of_alike {A : Variable → Variable → Prop} (alike : f.Alike A g) (ids : ∀ v w, A v w → v.id = w.id) :
    f.Resembles g := by
  refine ⟨alike.node.symm, alike.state.symm, alike.index.symm, alike.operands.length_eq.symm, alike.scope.symm,
    alike.call.symm, fun scope => alike.scope.symm.trans scope, ?_⟩
  rintro x ⟨v, hv, rfl⟩
  obtain ⟨w, hw, same⟩ := forall₂_exists_left alike.locals.flip hv
  exact ⟨w, hw, (ids v w same).symm⟩

end Frame.Resembles

theorem Fits.resembling {fs gs : List (Frame Variable)} (h : Fits p i (fs.map Frame.marked))
    (resemble : List.Forall₂ Frame.Resembles fs gs) : Fits p i (gs.map Frame.marked) := by
  induction resemble generalizing i with
  | nil => trivial
  | @cons f g fs gs own rest ih =>
    obtain ⟨node, _, state, beneath⟩ := h
    have calls : (gs.map Frame.marked).head?.any Frame.call = (fs.map Frame.marked).head?.any Frame.call := by
      cases rest with
      | nil => rfl
      | cons next _ => exact next.keeps.call
    have same : i.waiting g.marked.state g.marked.index = i.waiting f.marked.state f.marked.index :=
      congrArg₂ i.waiting own.state own.index
    refine ⟨own.node.trans node, rfl, own.state.trans_lt state, ?_⟩
    rw [same]
    split
    case h_1 c waits =>
      rw [waits] at beneath
      exact ih beneath
    case h_2 id waits =>
      rw [waits] at beneath
      obtain ⟨callee, found, call, beneath⟩ := beneath
      exact ⟨callee, found, calls.trans call, ih beneath⟩
    case h_3 other own =>
      split at beneath
      case h_1 c waits => exact absurd waits (other c)
      case h_2 id waits => exact absurd waits (own id)
      case h_3 =>
        rw [List.map_eq_nil_iff] at beneath ⊢
        subst beneath
        exact List.forall₂_nil_left_iff.1 rest

namespace Program

/-- In a tick an instruction does something by itself on a machine. -/
def Acts (p : Program) (x : Execution Variable) (s : Session) (i : Instr) (m : Machine) : Prop :=
  ∃ f y, p.prepare x s = .inr (f, y) ∧
    Tickwise.Acts p p.env.limits.maxFrames f.body (p.machine y s) i m

/-- What a host can come to from a function that it starts: it ticks it, in any environment and session, asks it to
stop, restores it whatever the answer is, or saves it and loads it again. -/
inductive Arrives (p : Program) : Execution Variable → Prop
  | start {x : Execution Variable} (h : p.Starts x) : Arrives p x
  | tick {x : Execution Variable} (e : Environment) (s : Session) (h : Arrives p x) :
      Arrives p ((p.inEnvironment e).tick x s).execution
  | stop {x : Execution Variable} (h : Arrives p x) : Arrives p x.requestStop
  | restore {x : Execution Variable} (h : Arrives p x) : Arrives p (p.restore x).2
  | reload {x y : Execution Variable} {saved heap loaded : Heap} {bytes : List UInt8} (e : Environment)
      (h : Arrives p x) (save : (x.save saved).toExcept = .ok bytes)
      (load : (p.inEnvironment e).load bytes heap = .ok (y, loaded)) : Arrives p y

structure Resumes (p : Program) (f : Function) (x : Execution Variable) : Prop where
  entry : p.function? x.entry = some f
  fits : Fits p f.body (x.frames.map Frame.marked)
  stacked : Stacked p f.body [] x.frames

variable {f g : Function} {x y : Execution Variable} {s : Session} {e : Environment}

theorem Sighted.inEnvironment (hp : p.Sighted) (e : Environment) : (p.inEnvironment e).Sighted :=
  ⟨hp.braced, hp.sees, hp.arity⟩

theorem placed_inEnvironment (e : Environment) (i : Instr) (around : List (Frame Variable)) (f : Frame Variable) :
    f.Placed (p.inEnvironment e) i around ↔ f.Placed p i around where
  mp h := ⟨h.sight, h.enclosed, h.scope, h.parts, h.beside, h.sure, h.from_zero, h.gathers⟩
  mpr h := ⟨h.sight, h.enclosed, h.scope, h.parts, h.beside, h.sure, h.from_zero, h.gathers⟩

theorem stacked_inEnvironment (e : Environment) (i : Instr) (around frames : List (Frame Variable)) :
    Stacked (p.inEnvironment e) i around frames ↔ Stacked p i around frames := by
  induction frames generalizing i around with
  | nil => exact .rfl
  | cons f rest ih =>
    unfold Stacked
    rw [placed_inEnvironment]
    cases i.waiting f.state f.index with
    | child c => simp only [ih]
    | callee id => simp only [ih]; rfl
    | _ => exact .rfl

theorem resumes_inEnvironment (e : Environment) (f : Function) (x : Execution Variable) :
    (p.inEnvironment e).Resumes f x ↔ p.Resumes f x where
  mp h := ⟨h.entry, (fits_inEnvironment ..).1 h.fits, (stacked_inEnvironment ..).1 h.stacked⟩
  mpr h := ⟨h.entry, (fits_inEnvironment ..).2 h.fits, (stacked_inEnvironment ..).2 h.stacked⟩

theorem arity_of_startFunction? {id : FunctionId} {args : List Variable} {h : Heap}
    (found : p.function? id = some f) (start : p.startFunction? id args h = some x) :
    args.length = f.params.length := by
  unfold startFunction? at start
  simp only [found, Option.bind_eq_bind, Option.bind_some] at start
  split at start
  case isTrue same => exact same.1.symm
  case isFalse => cases start

theorem Starts.resumes (hp : p.Sighted) (h : p.Starts x) : ∃ f, p.Resumes f x := by
  obtain ⟨id, args, heap, start⟩ := h.startFunction?
  obtain ⟨f, params, found, bound, rfl⟩ := begin_of_startFunction? start
  refine ⟨f, found, fits_start p f.body _ rfl rfl rfl, ?_⟩
  have placed : (Frame.ofCall f.body.id params).Placed p f.body [] :=
    .ofCall hp found bound (arity_of_startFunction? found start)
  exact placed.stacked_start (contains_body found) rfl

namespace Resumes

theorem resembling (h : p.Resumes f x) (entry : y.entry = x.entry)
    (resemble : List.Forall₂ Frame.Resembles x.frames y.frames) : p.Resumes f y where
  entry := entry ▸ h.entry
  fits := h.fits.resembling resemble
  stacked := h.stacked.resembling .nil resemble

theorem restore (h : p.Resumes f x) : p.Resumes f (p.restore x).2 :=
  h.resembling (p.entry_restore rfl).1 (Frame.Resembles.of_marked (p.map_marked_restore x).symm)

theorem reload {saved heap loaded : Heap} {bytes : List UInt8} (h : p.Resumes f x)
    (save : (x.save saved).toExcept = .ok bytes) (load : p.load bytes heap = .ok (y, loaded)) : p.Resumes f y := by
  obtain ⟨_, _, load', alike, _⟩ := (Execution.readable_of_load save load).load save heap
  cases load'.symm.trans load
  have marks := Frame.map_marked_unmarked x.frames
  have reread : p.Resumes f x.reread := h.resembling rfl (Frame.Resembles.of_marked marks.symm)
  refine reread.resembling alike.entry.symm ?_
  exact alike.frames.imp fun f g same => .of_alike same fun v w twins => Slot.Alike.id twins

theorem prepare (h : p.Resumes f x) (prepared : p.prepare x s = .inr (g, y)) :
    g = f ∧ p.Resumes f y ∧ Fits p f.body y.frames := by
  obtain ⟨entry, _, going⟩ := prepare_right prepared
  obtain ⟨resumes, live⟩ : p.Resumes f y ∧ ∀ f ∈ y.frames, f.live = true := by
    rcases going with ⟨restored, rfl⟩ | ⟨_, accepted⟩
    · exact ⟨h, List.all_eq_true.1 restored⟩
    · have resumes := h.restore
      rw [accepted] at resumes
      exact ⟨resumes, live_of_restore accepted⟩
  refine ⟨Option.some.inj (entry.symm.trans h.entry), resumes, ?_⟩
  rw [← Frame.map_marked_of_live live]
  exact resumes.fits

theorem reaches (h : p.Resumes f x) (fits : Fits p f.body x.frames) (s : Session) :
    (p.machine x s).Reaches p f.body :=
  ⟨contains_body h.entry, fits, h.stacked⟩

theorem tick (hp : p.Sighted) (h : p.Resumes f x) (s : Session) :
    (p.tick x s).execution.status.isOver = true ∨ p.Resumes f (p.tick x s).execution := by
  rcases p.tick_cases x s with ⟨_, done⟩ | ⟨g, y, m, prepared, run, tick⟩
  · exact .inl done
  · obtain ⟨rfl, resumes, fits⟩ := h.prepare prepared
    have reaches := resumes.reaches fits s
    obtain ⟨_, _, inFlight, _⟩ := (run.leaves reaches.fits).suspends rfl
    have sight := run.sight hp reaches
    have outer : m.frames = [] := List.forall₂_nil_left_iff.1 run.keeps
    rw [tick]
    refine .inr ⟨resumes.entry, ?_, ?_⟩
    · change Fits p g.body (m.deeper.map Frame.marked)
      rw [Frame.map_marked_of_live inFlight.live]
      exact inFlight.fits
    · change Stacked p g.body m.frames m.deeper at sight
      rwa [outer] at sight

end Resumes

theorem Arrives.resumes (hp : p.Sighted) (h : p.Arrives x) : x.status.isOver = true ∨ ∃ f, p.Resumes f x := by
  induction h with
  | start h => exact .inr (h.resumes hp)
  | @tick x e s _ ih =>
    rcases ih with done | ⟨f, h⟩
    · exact .inl (over_tick done ..)
    · have resumes := (resumes_inEnvironment e f x).2 h
      exact (resumes.tick (hp.inEnvironment e) s).imp_right fun h => ⟨f, (resumes_inEnvironment ..).1 h⟩
  | stop _ ih => exact ih.imp_right fun ⟨f, h⟩ => ⟨f, h.entry, h.fits, h.stacked⟩
  | @restore x _ ih =>
    rcases ih with done | ⟨f, h⟩
    · obtain ⟨_, status, _⟩ := p.entry_restore (x := x) rfl
      exact .inl (status ▸ done)
    · exact .inr ⟨f, h.restore⟩
  | @reload x y _ heap _ _ e _ save load ih =>
    rcases ih with done | ⟨f, h⟩
    · obtain ⟨_, _, load', alike, _⟩ := (Execution.readable_of_load save load).load save heap
      cases load'.symm.trans load
      have status : x.status = y.status := alike.status
      exact .inl (status ▸ done)
    · have resumes := (resumes_inEnvironment e f x).2 h
      exact .inr ⟨f, (resumes_inEnvironment ..).1 (resumes.reload save load)⟩

theorem Acts.sights {i : Instr} {m : Machine} {place : Place Instr} (hp : p.Sighted) (arrives : p.Arrives x)
    (h : (p.inEnvironment e).Acts x s i m) (accesses : i.place? = some place) :
    m.Sights (p.inEnvironment e) i := by
  obtain ⟨g, y, prepared, acts⟩ := h
  rcases arrives.resumes hp with done | ⟨f, resumes⟩
  · have running := (prepare_right prepared).2.1
    rw [done] at running
    cases running
  · obtain ⟨rfl, resumes, fits⟩ := ((resumes_inEnvironment e f x).2 resumes).prepare prepared
    exact acts.sights (hp.inEnvironment e) (resumes.reaches fits s) accesses

end Program
end Tickwise
