import Tickwise.Proofs.Execution.Budget
import Tickwise.Proofs.Typing.Executions
set_option autoImplicit false

/-!
# What a run executes

All that executes while an instruction executes, and all that a host can come to by ticks: each of it is
a typed instruction on a typed machine.
-/
namespace Tickwise

open Exec

inductive Passes (p : Program) (room : Nat) (i : Instr) : Machine → Machine → Prop
  | here {m : Machine} : Passes p room i m m
  | next {m m' m'' : Machine} (first : turn (exec p room) p room i m = (.ok none, m'))
      (rest : Passes p room i m' m'') : Passes p room i m m''

/-- While `root` executes from the machine `m₀`, another instruction is executed from a machine. -/
inductive Visits (p : Program) (depth : Nat) (root : Instr) (m₀ : Machine) :
    Nat → Instr → Machine → Prop
  | root : Visits p depth root m₀ depth root m₀
  | part {room : Nat} {i c : Instr} {m inside m' : Machine}
      {follow : Except Interrupt Variable → Exec (Option Variable)}
      (above : Visits p depth root m₀ (room + 1) i m) (entered : m.enter? i.id = some inside)
      (passes : Passes p room i inside m') (move : i.move p m'.own = .run c follow) :
      Visits p depth root m₀ room c m'

/-- While `root` executes, another instruction goes on with what it does itself on a machine: from the
start of a turn, or with the value of a part. -/
inductive Handles (p : Program) (depth : Nat) (root : Instr) (m₀ : Machine) : Instr → Machine → Prop
  | turn {room : Nat} {i : Instr} {m inside m' : Machine}
      (visits : Visits p depth root m₀ (room + 1) i m) (entered : m.enter? i.id = some inside)
      (passes : Passes p room i inside m') : Handles p depth root m₀ i m'
  | follow {room : Nat} {i c : Instr} {m inside m' m'' : Machine} {v : Variable}
      {follow : Except Interrupt Variable → Exec (Option Variable)}
      (visits : Visits p depth root m₀ (room + 1) i m) (entered : m.enter? i.id = some inside)
      (passes : Passes p room i inside m') (move : i.move p m'.own = .run c follow)
      (ended : exec p room c m' = (.ok v, m'')) : Handles p depth root m₀ i m''

variable {p : Program} {D : Declarations} {ret : Ty} {depth room : Nat} {root i c : Instr} {S : MarkedShapes}
  {m m' m₀ : Machine}

def pass? (p : Program) (room : Nat) (i : Instr) : (turns : Nat) → Machine → Option Machine
  | 0, m => some m
  | turns + 1, m =>
    match turn (exec p room) p room i m with
    | (.ok none, m') => pass? p room i turns m'
    | _ => none

def visit? (p : Program) : (turns : List Nat) → (room : Nat) → Instr → Machine →
    Option (Nat × Instr × Machine)
  | [], room, i, m => some (room, i, m)
  | _ :: _, 0, _, _ => none
  | n :: turns, room + 1, i, m =>
    match (m.enter? i.id).bind (pass? p room i n) with
    | none => none
    | some m' =>
      match i.move p m'.own with
      | .run c _ => visit? p turns room c m'
      | _ => none

theorem Passes.of_pass? {turns : Nat} (h : pass? p room i turns m = some m') :
    Passes p room i m m' := by
  induction turns generalizing m with
  | zero =>
    cases h
    exact .here
  | succ turns ih =>
    unfold pass? at h
    split at h
    case h_1 m₁ first => exact .next first (ih h)
    case h_2 => cases h

theorem Visits.of_visit? {turns : List Nat} {below : Nat} (above : Visits p depth root m₀ room i m)
    (h : visit? p turns room i m = some (below, c, m')) : Visits p depth root m₀ below c m' := by
  induction turns generalizing room i m with
  | nil =>
    cases h
    exact above
  | cons n turns ih =>
    cases room with
    | zero => cases h
    | succ room =>
      unfold visit? at h
      split at h
      case h_1 => cases h
      case h_2 m₁ passed =>
        obtain ⟨inside, entered, passed⟩ := Option.bind_eq_some_iff.1 passed
        split at h
        case h_1 part follow move =>
          exact ih (.part above entered (.of_pass? passed) move) h
        case h_2 => cases h

theorem Passes.amid (hp : p.Keeps D S.marking) (h : Passes p room i m m') (amid : m.Amid p D ret i S) :
    ∃ S', S.Le S' ∧ m'.Amid p D ret i S' := by
  induction h generalizing S with
  | here => exact ⟨S, .refl S, amid⟩
  | next first _ ih =>
    obtain ⟨S₁, le, amid⟩ := (turn_eq_iff.1 first).amid hp (p.deeper D room) amid
    obtain ⟨S₂, le', amid⟩ := ih (hp.mono le) amid
    exact ⟨S₂, le.trans le', amid⟩

theorem Machine.Amid.inner {follow : Except Interrupt Variable → Exec (Option Variable)} {ret' : Ty}
    (amid : m.Amid p D ret i S) (move : i.move p m.own = .run c follow) (hc : c.Typed D ret') :
    m.Before p D ret' c S := by
  obtain ⟨_, hm, _, fits, resumes⟩ := amid
  have agrees := fits.agrees move nofun
  exact ⟨hc, hm, fits.inner agrees, resumes.inner agrees⟩

theorem Machine.Amid.part {follow : Except Interrupt Variable → Exec (Option Variable)}
    (hp : p.Keeps D S.marking) (amid : m.Amid p D ret i S) (move : i.move p m.own = .run c follow) :
    ∃ ret', m.Before p D ret' c S := by
  have sound := Instr.move_sound hp.typed amid.instr amid.resumes.1 amid.fits.2.2.1
  rw [move] at sound
  obtain ⟨ret', hc, _⟩ := sound
  exact ⟨ret', amid.inner move hc⟩

theorem Visits.before (hp : p.Keeps D S.marking) (start : m₀.Before p D ret root S)
    (h : Visits p depth root m₀ room i m) :
    ∃ ret' S', p.Keeps D S'.marking ∧ m.Before p D ret' i S' := by
  induction h with
  | root => exact ⟨ret, S, hp, start⟩
  | part _ entered passes move ih =>
    obtain ⟨ret', S', hp, before⟩ := ih
    obtain ⟨S₂, le, amid⟩ := passes.amid hp (before.enter entered)
    obtain ⟨ret'', part⟩ := amid.part (hp.mono le) move
    exact ⟨ret'', S₂, hp.mono le, part⟩

theorem Handles.typed (hp : p.Keeps D S.marking) (start : m₀.Before p D ret root S)
    (h : Handles p depth root m₀ i m) : ∃ ret' S', i.Typed D ret' ∧ m.Typed D S' := by
  cases h with
  | turn visits entered passes =>
    obtain ⟨ret', S', hp, before⟩ := visits.before hp start
    obtain ⟨S₂, _, amid⟩ := passes.amid hp (before.enter entered)
    exact ⟨ret', S₂, amid.instr, amid.typed⟩
  | @follow room _ _ _ _ _ _ _ _ visits entered passes move ended =>
    obtain ⟨ret', S', hp, before⟩ := visits.before hp start
    obtain ⟨S₂, le, amid⟩ := passes.amid hp (before.enter entered)
    obtain ⟨ret'', part⟩ := amid.part (hp.mono le) move
    have sound := (p.deeper D room).sound (hp.mono le) part ended
    obtain ⟨S₃, _, typed, _⟩ := sound
    exact ⟨ret', S₃, amid.instr, typed⟩

namespace Program

/-- The arguments are of the types of the parameters, in storage each piece of which has one shape. -/
def Accepts (p : Program) (f : Function) (args : List Variable) (h : Heap) : Prop :=
  ∃ S : Shapes, S.class? = p.class? ∧ S.Describes h ∧
    List.Forall₂ (fun q v => S.Has q.ty v.value) f.params args

def Begins (p : Program) (x : Execution Variable) (s : Session) : Prop :=
  ∃ id f args, p.function? id = some f ∧ p.Accepts f args s.heap ∧
    p.startFunction? id args s.heap = some x

/-- What such an execution and its session come to by ticks, each with a budget of its own, and by
requests to stop. -/
inductive Runs (p : Program) : Execution Variable → Session → Prop
  | start {x : Execution Variable} {s : Session} (h : p.Begins x s) : Runs p x s
  | tick {x : Execution Variable} {s : Session} (budget : Nat) (h : Runs p x s) :
      Runs p ((p.withSteps budget).tick x s).execution ((p.withSteps budget).tick x s).session
  | stop {x : Execution Variable} {s : Session} (h : Runs p x s) : Runs p x.requestStop s

/-- What an execution and its session come to by ticks, each with a budget of its own, and by requests to
stop. -/
inductive Follows (p : Program) (x₀ : Execution Variable) (s₀ : Session) :
    Execution Variable → Session → Prop
  | refl : Follows p x₀ s₀ x₀ s₀
  | tick {x : Execution Variable} {s : Session} (budget : Nat) (h : Follows p x₀ s₀ x s) :
      Follows p x₀ s₀ ((p.withSteps budget).tick x s).execution ((p.withSteps budget).tick x s).session
  | stop {x : Execution Variable} {s : Session} (h : Follows p x₀ s₀ x s) :
      Follows p x₀ s₀ x.requestStop s

/-- A tick executes an instruction from a machine. -/
def Visits (p : Program) (x : Execution Variable) (s : Session) (room : Nat) (i : Instr) (m : Machine) :
    Prop :=
  ∃ f y, p.prepare x s = .inr (f, y) ∧
    Tickwise.Visits p p.env.limits.maxFrames f.body (p.machine y s) room i m

/-- In a tick an instruction does what it does itself on a machine. -/
def Handles (p : Program) (x : Execution Variable) (s : Session) (i : Instr) (m : Machine) : Prop :=
  ∃ f y, p.prepare x s = .inr (f, y) ∧
    Tickwise.Handles p p.env.limits.maxFrames f.body (p.machine y s) i m

def reach? (p : Program) (x : Execution Variable) (s : Session) (turns : List Nat) (own : Nat) :
    Option (Nat × Instr × Machine) :=
  match p.prepare x s with
  | .inr (f, y) =>
    match visit? p turns p.env.limits.maxFrames f.body (p.machine y s) with
    | some (room + 1, i, m) => ((m.enter? i.id).bind (pass? p room i own)).map (room, i, ·)
    | _ => none
  | .inl _ => none

theorem exists_of_reach? {p : Program} {x : Execution Variable} {s : Session} {turns : List Nat} {own room : Nat}
    {i : Instr} {m : Machine} (h : p.reach? x s turns own = some (room, i, m)) :
    ∃ before inside, p.Visits x s (room + 1) i before ∧ before.enter? i.id = some inside ∧
      Tickwise.Passes p room i inside m := by
  unfold reach? at h
  split at h
  case h_1 f y prepared =>
    split at h
    case h_1 room' i' before visited =>
      obtain ⟨m', passed, same⟩ := Option.map_eq_some_iff.1 h
      obtain ⟨inside, entered, passed⟩ := Option.bind_eq_some_iff.1 passed
      cases same
      exact ⟨before, inside, ⟨f, y, prepared, .of_visit? .root visited⟩, entered, .of_pass? passed⟩
    case h_2 => cases h
  case h_2 => cases h

/-- An execution goes on in typed frames, and the storage of its session is typed. -/
structure Holds (p : Program) (D : Declarations) (S : MarkedShapes) (f : Function) (x : Execution Variable)
    (s : Session) : Prop extends Ready p f x where
  classes : S.class? = D.class?
  heap : S.Describes s.heap
  frames : S.HasFrames D x.frames
  resumes : S.Resumes p f.body x.frames
  result : x.result = none

structure Rests (p : Program) (S : MarkedShapes) (x : Execution Variable) (s : Session) : Prop where
  done : x.status.isOver = true
  program : x.programId = p.id
  heap : S.Describes s.heap
  frames : x.frames = []
  result : ∀ v ∈ x.result, ∃ ty, S.HasTemp ty v

def Stands (p : Program) (D : Declarations) (S : MarkedShapes) (x : Execution Variable) (s : Session) : Prop :=
  (∃ f, p.Holds D S f x s) ∨ p.Rests S x s

variable {f : Function} {x y x₀ : Execution Variable} {s s₀ : Session} {budget : Nat}

theorem Keeps.withSteps {M : Marking} (hp : p.Keeps D M) (budget : Nat) :
    (p.withSteps budget).Keeps D M :=
  ⟨⟨hp.typed.classes, hp.typed.natives, hp.typed.signatures, hp.typed.functions⟩, hp.natives⟩

variable {f g : Function} {x y x₀ : Execution Variable} {s s₀ : Session} {budget : Nat}

theorem Holds.before (h : p.Holds D S f x s) (hp : p.Typed D) (budget : Nat) :
    ((p.withSteps budget).machine x s).Before (p.withSteps budget) D f.ret f.body S where
  instr := (hp.functions f (List.mem_of_getElem? h.entry)).body
  typed := ⟨h.classes, h.heap, nofun, h.frames⟩
  fits := (fits_inEnvironment ..).2 h.fits
  resumes := (along_inEnvironment ..).2 h.resumes

theorem holds_of_start {id : FunctionId} {args : List Variable} (hp : p.Typed D)
    (found : p.function? id = some f) (classes : S.class? = p.class?) (described : S.Describes s.heap)
    (has : List.Forall₂ (fun q v => S.Has q.ty v.value) f.params args)
    (start : p.startFunction? id args s.heap = some x) : p.Holds D S f x s := by
  obtain ⟨f', params, found', bound, rfl⟩ := begin_of_startFunction? start
  cases found.symm.trans found'
  have declared := (hp.functions f (List.mem_of_getElem? found)).params
  have locals := hasLocal_of_bindParams declared has bound
  exact {
    entry := found
    program := rfl
    running := rfl
    fits := fits_start p f.body _ rfl rfl rfl
    classes := classes.trans (funext hp.classes)
    heap := described
    frames := .cons ⟨locals, nofun⟩ nofun
    resumes := .single (Frame.sound_ofCall ..)
    result := rfl }

theorem hasTemp_of_verdict {S : MarkedShapes} {o : Except Interrupt Variable} {h : Heap} {v : Variable}
    (sound : ∀ w, o = .error (.returned w) → S.Has f.ret w.value)
    (finished : verdict f o h = .finished v) : S.HasTemp f.ret v := by
  rcases finished_of_verdict finished with ⟨w, rfl, converted⟩ | ⟨isVoid, rfl⟩
  · exact MarkedShapes.hasTemp_of_convert (sound w rfl).offers converted
  · rw [isVoid]
    exact S.hasTemp_ofVoid

theorem Holds.tick (h : p.Holds D S f x s) (hp : p.Keeps D S.marking) (budget : Nat) :
    ∃ S', S.Le S' ∧ p.Stands D S' ((p.withSteps budget).tick x s).execution
      ((p.withSteps budget).tick x s).session := by
  have before := h.before hp.typed budget
  obtain ⟨o, m, run⟩ := Executes.total (p.withSteps budget) p.env.limits.maxFrames f.body
    ((p.withSteps budget).machine x s)
  obtain ⟨S', le, typed, ends⟩ := run.sound (hp.withSteps budget) before
  rw [tick_of_prepare (h.prepare s budget) run]
  refine ⟨S', le, ?_⟩
  unfold conclude
  dsimp only
  split
  case h_1 suspended =>
    obtain rfl := suspended_of_verdict suspended
    obtain ⟨j, g, inFlight, _⟩ := (run.leaves before.fits).suspends rfl
    exact .inl ⟨f, {
      entry := h.entry
      program := h.program
      running := rfl
      fits := (fits_inEnvironment ..).1 inFlight.fits
      classes := typed.classes
      heap := typed.heap
      frames := typed.deeper
      resumes := (along_inEnvironment ..).1 ends
      result := h.result }⟩
  case h_2 v finished =>
    have temp : S'.HasTemp f.ret v := by
      refine hasTemp_of_verdict (fun w returned => ?_) finished
      rw [returned] at ends
      exact ends
    refine .inr ⟨rfl, h.program, typed.heap, rfl, fun w hw => ?_⟩
    cases hw
    exact ⟨f.ret, temp⟩
  case h_3 =>
    refine .inr ⟨rfl, h.program, typed.heap, rfl, fun w hw => ?_⟩
    have none : x.result = some w := hw
    rw [h.result] at none
    cases none

theorem Stands.tick (h : p.Stands D S x s) (hp : p.Keeps D S.marking) (budget : Nat) :
    ∃ S', S.Le S' ∧ p.Stands D S' ((p.withSteps budget).tick x s).execution
      ((p.withSteps budget).tick x s).session := by
  rcases h with ⟨f, h⟩ | h
  · exact h.tick hp budget
  · obtain ⟨execution, session⟩ := tick_of_over h.done (p.withSteps budget) s
    rw [execution, session]
    exact ⟨S, .refl S, .inr h⟩

theorem Stands.stop (h : p.Stands D S x s) : p.Stands D S x.requestStop s := by
  rcases h with ⟨f, h⟩ | h
  · exact .inl ⟨f, { h with entry := h.entry, program := h.program }⟩
  · exact .inr ⟨h.done, h.program, h.heap, h.frames, h.result⟩

theorem Follows.stands (h : p.Follows x₀ s₀ x s) (start : p.Stands D S x₀ s₀) (hp : p.Keeps D S.marking) :
    ∃ S', S.Le S' ∧ p.Stands D S' x s := by
  induction h with
  | refl => exact ⟨S, .refl S, start⟩
  | tick budget _ ih =>
    obtain ⟨S₁, le, stands⟩ := ih
    obtain ⟨S₂, le', stands⟩ := stands.tick (hp.mono le) budget
    exact ⟨S₂, le.trans le', stands⟩
  | stop _ ih =>
    obtain ⟨S₁, le, stands⟩ := ih
    exact ⟨S₁, le, stands.stop⟩

theorem Runs.follows (h : p.Runs x s) : ∃ x₀ s₀, p.Begins x₀ s₀ ∧ p.Follows x₀ s₀ x s := by
  induction h with
  | start h => exact ⟨_, _, h, .refl⟩
  | tick budget _ ih =>
    obtain ⟨x₀, s₀, begins, follows⟩ := ih
    exact ⟨x₀, s₀, begins, .tick budget follows⟩
  | stop _ ih =>
    obtain ⟨x₀, s₀, begins, follows⟩ := ih
    exact ⟨x₀, s₀, begins, .stop follows⟩

theorem Stands.before (h : p.Stands D S x s) (hp : p.Typed D) (prepared : (p.withSteps budget).prepare x s = .inr (f, y)) :
    ((p.withSteps budget).machine y s).Before (p.withSteps budget) D f.ret f.body S := by
  rcases h with ⟨g, holds⟩ | rests
  · cases (holds.prepare s budget).symm.trans prepared
    exact holds.before hp budget
  · have running := (prepare_right prepared).2.1
    rw [rests.done] at running
    cases running

theorem Runs.stands (hp : p.Keeps D .loose) (h : p.Runs x s) : ∃ S, p.Keeps D S.marking ∧ p.Stands D S x s := by
  obtain ⟨x₀, s₀, ⟨id, f₀, args, found, ⟨S, classes, described, has⟩, start⟩, follows⟩ := h.follows
  have begun : p.Holds D ⟨S, .loose⟩ f₀ x₀ s₀ :=
    holds_of_start hp.typed found classes (Shapes.describes_loose.2 described) has start
  obtain ⟨S', le, stands⟩ := follows.stands (.inl ⟨f₀, begun⟩) hp
  exact ⟨S', hp.mono le, stands⟩

theorem Runs.before (hp : p.Keeps D .loose) (h : p.Runs x s)
    (prepared : (p.withSteps budget).prepare x s = .inr (f, y)) :
    ∃ S, p.Keeps D S.marking ∧
      ((p.withSteps budget).machine y s).Before (p.withSteps budget) D f.ret f.body S := by
  obtain ⟨S, keeps, stands⟩ := h.stands hp
  exact ⟨S, keeps, stands.before hp.typed prepared⟩

end Program
end Tickwise
