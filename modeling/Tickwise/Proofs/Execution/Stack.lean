import Tickwise.Proofs.Execution.Calls
import Tickwise.Proofs.Machine.Ancestors
import Tickwise.Proofs.Sight.Scopes
set_option autoImplicit false

/-!
# The stack of an execution

An execution that was started and never read back keeps its frames in order: each instruction finds those of its
ancestors and leaves them so, no access is out of range, and there are no more frames than may be nested.
-/
namespace Tickwise

open Exec

namespace Frame

variable {fs : List (Frame Variable)} {vs : List Variable} {f : Frame Variable} {v : Variable} {id : VarId}

theorem replaceFirst_of_find? {q : Variable → Bool} (found : vs.find? q = some v) :
    ∃ before after, vs = before ++ v :: after ∧ ∀ w, replaceFirst q w vs = before ++ w :: after := by
  induction vs with
  | nil => cases found
  | cons u vs ih =>
    rw [List.find?_cons] at found
    split at found
    case h_1 here =>
      cases found
      exact ⟨[], vs, rfl, fun w => by rw [replaceFirst, if_pos here]; rfl⟩
    case h_2 other =>
      obtain ⟨before, after, rfl, replaced⟩ := ih found
      refine ⟨u :: before, after, rfl, fun w => ?_⟩
      rw [replaceFirst, if_neg (by simp [other]), replaced]
      rfl

theorem setLocal_of_local? (found : f.local? id = some v) :
    ∃ k, f.locals[k]? = some v ∧ ∀ w, f.setLocal id w = { f with locals := f.locals.set k w } := by
  obtain ⟨before, after, whole, replaced⟩ := replaceFirst_of_find? found
  have locals : f.locals = after.reverse ++ v :: before.reverse := by
    rw [← List.reverse_reverse f.locals, whole]
    simp
  refine ⟨after.length, ?_, fun w => ?_⟩
  · rw [locals]
    simp
  · unfold setLocal
    rw [replaced, locals]
    simp

theorem setVar_of_findVar? (found : findVar? id fs = some v) :
    ∃ d f k, fs[d]? = some f ∧ f.locals[k]? = some v ∧
      ∀ w, setVar id w fs = fs.set d { f with locals := f.locals.set k w } := by
  induction fs with
  | nil => cases found
  | cons f fs ih =>
    unfold findVar? at found
    cases here : f.local? id with
    | some u =>
      rw [here] at found
      cases found
      obtain ⟨k, at_, replaced⟩ := setLocal_of_local? here
      refine ⟨0, f, k, rfl, at_, fun w => ?_⟩
      rw [setVar, here, replaced]
      rfl
    | none =>
      rw [here] at found
      dsimp only at found
      split at found
      case isTrue => cases found
      case isFalse inner =>
        obtain ⟨d, g, k, frame, at_, replaced⟩ := ih found
        refine ⟨d + 1, g, k, frame, at_, fun w => ?_⟩
        rw [setVar, here, if_neg (by simp), if_neg inner, replaced]
        rfl

end Frame

namespace Machine

/-- A variable is a local of one of the frames, where it is read and written. -/
def Indexes (m : Machine) (id : VarId) : Prop :=
  ∃ d f k v, m.allFrames[d]? = some f ∧ f.locals[k]? = some v ∧ m.read? (.var id) = some v ∧
    ∀ w, (m.write (.var id) w).allFrames = m.allFrames.set d { f with locals := f.locals.set k w }

theorem indexes_of_read? {m : Machine} {id : VarId} {v : Variable} (found : m.read? (.var id) = some v) :
    m.Indexes id := by
  obtain ⟨d, f, k, frame, at_, replaced⟩ := Frame.setVar_of_findVar? found
  exact ⟨d, f, k, v, frame, at_, found, fun w => (m.allFrames_setVar id w).trans (replaced w)⟩

end Machine

namespace Exec

variable {ι : Type} {span : Span} {grow : Bool} {path : List (Access ι)} {vs : List Variable} {m m' : Machine}
  {storage target : Storage}

theorem element_ok {container : Variable} {index : Int32} {elem : Ty}
    (h : element span container index elem grow m = (.ok target, m')) : ∃ r position, target = .cell r position := by
  obtain ⟨r, _, _, h⟩ := ok_of_bind h
  split at h
  case isTrue => cases h
  case isFalse =>
    obtain ⟨_, _, _, h⟩ := ok_of_bind h
    split at h
    case isTrue =>
      cases h
      exact ⟨_, _, rfl⟩
    case isFalse =>
      split at h
      case isTrue =>
        obtain ⟨_, _, _, h⟩ := ok_of_bind h
        cases h
        exact ⟨_, _, rfl⟩
      case isFalse => cases h

theorem follow_ok (h : follow span grow path vs storage m = (.ok target, m')) :
    path = [] ∧ target = storage ∧ m' = m ∨ ∃ r position, target = .cell r position := by
  induction path generalizing vs storage m with
  | nil =>
    cases h
    exact .inl ⟨rfl, rfl, rfl⟩
  | cons access path ih =>
    have cell {vs : List Variable} {r : Ref} {position : Nat} {n : Machine}
        (h : follow span grow path vs (.cell r position) n = (.ok target, m')) :
        ∃ r position, target = .cell r position := by
      rcases ih h with ⟨_, same, _⟩ | cell
      · exact ⟨r, position, same⟩
      · exact cell
    cases access with
    | field position =>
      obtain ⟨_, _, _, h⟩ := ok_of_bind h
      obtain ⟨_, _, _, h⟩ := ok_of_bind h
      exact .inr (cell h)
    | index at_ elem =>
      obtain ⟨_, _, _, h⟩ := ok_of_bind h
      obtain ⟨_, _, _, h⟩ := ok_of_bind h
      obtain ⟨_, _, entry, h⟩ := ok_of_bind h
      obtain ⟨r, position, rfl⟩ := element_ok entry
      exact .inr (cell h)

theorem locate_var {place : Place ι} {id : VarId} (h : locate span place grow m = (.ok (.var id), m')) :
    m' = m ∧ m.Indexes id := by
  obtain ⟨v, n, read, h⟩ := ok_of_bind h
  obtain ⟨vs, n', operands, h⟩ := ok_of_bind h
  cases operands
  rw [read_apply] at read
  cases found : m.read? (.var place.root) with
  | none =>
    rw [found] at read
    cases read
  | some u =>
    rw [found] at read
    cases read
    rcases follow_ok h with ⟨_, same, rfl⟩ | ⟨r, position, cell⟩
    · cases same
      exact ⟨rfl, Machine.indexes_of_read? found⟩
    · cases cell

end Exec

/-- While an instruction executes the frames around it are as they were: it has its own back or makes it, acts there,
and leaves none but its own. -/
structure Machine.Disciplined (p : Program) (depth room : Nat) (i : Instr) (m : Machine) : Prop where
  enters : ∃ inside, m.enter? i.id = some inside
  quits : m.Quits depth i (exec p room i m)
  keeps : ∀ room' j n, Visits p room i m room' j n → m.frames.map Frame.bare <:+ n.frames.map Frame.bare
  occupies : ∀ inner inside m', room = inner + 1 → m.enter? i.id = some inside → Passes p inner i inside m' →
    m.Occupies depth i m' ∧ m.Occupies depth i (turn (exec p inner) p inner i m').2
  places : ∀ inner inside m' g params, room = inner + 1 → m.enter? i.id = some inside → Passes p inner i inside m' →
    i.move p m'.own = .enter g →
      ∃ n, (m'.modifyFrame ({ · with operands := [] })).placeCallee? g.body.id params = some n

theorem Machine.Surrounds.disciplined {p : Program} {depth room : Nat} {root i : Instr} {left : List (Frame Variable)}
    {again : Prop} {m : Machine} (h : m.Surrounds p depth root left again room i) : m.Disciplined p depth room i where
  enters := h.enter?
  quits := h.quits
  keeps _ _ _ visits := visits.around
  occupies := by
    rintro inner inside m' rfl entered passes
    exact ⟨h.occupies entered passes, h.turned entered passes⟩
  places := by
    rintro inner inside m' g params rfl entered passes move
    exact h.places entered passes move params

namespace Program

/-- What an execution comes to that was started, by ticks, each with a budget of its own and on any session, and by
requests to stop. -/
inductive Advances (p : Program) : Execution Variable → Prop
  | start {x : Execution Variable} (h : p.Starts x) : Advances p x
  | tick {x : Execution Variable} (budget : Nat) (s : Session) (h : Advances p x) :
      Advances p ((p.withSteps budget).tick x s).execution
  | stop {x : Execution Variable} (h : Advances p x) : Advances p x.requestStop

structure Arranged (p : Program) (f : Function) (x : Execution Variable) : Prop extends Ready p f x where
  surrounds : ∀ m : Machine, m.frames = [] → m.deeper = x.frames →
    m.Surrounds p p.env.limits.maxFrames f.body x.frames (x.status = .suspended) p.env.limits.maxFrames f.body

variable {p : Program} {f : Function} {x : Execution Variable} {s : Session}

theorem Starts.withSteps (h : p.Starts x) (budget : Nat) : (p.withSteps budget).Starts x := by
  cases h with
  | byPosition start => exact .byPosition start
  | byName start => exact .byName start

theorem Advances.withSteps (h : p.Advances x) (budget : Nat) : (p.withSteps budget).Advances x := by
  induction h with
  | start h => exact .start (h.withSteps budget)
  | tick own s _ ih => exact ih.tick own s
  | stop _ ih => exact ih.stop

theorem Arranged.length_frames (h : p.Arranged f x) : x.frames.length ≤ max 1 p.env.limits.maxFrames := by
  have most := (h.surrounds ⟨[], x.frames, .empty, ⟨[], []⟩, 0, 0, false⟩ rfl rfl).most
  rwa [List.length_nil, Nat.zero_add] at most

theorem Starts.arranged (h : p.Starts x) : ∃ f, p.Arranged f x := by
  obtain ⟨id, f, params, found, rfl⟩ := h.begin
  refine ⟨f, ⟨rfl, found, rfl, fits_start p f.body _ rfl rfl rfl⟩, fun m frames deeper => ?_⟩
  refine ⟨by rw [frames, List.length_nil, Nat.zero_add], ?_, .entered found rfl deeper, ?_⟩
  · rw [frames]
    exact .self
  · rw [frames, deeper]
    exact Nat.le_max_left ..

theorem Arranged.tick (h : p.Arranged f x) (budget : Nat) (s : Session) :
    let y := ((p.withSteps budget).tick x s).execution
    y.status.isOver = true ∧ y.frames = [] ∨ p.Arranged f y := by
  let before := (p.machine x s).still.more (max budget 1) 0
  have quits := (h.surrounds before rfl rfl).quits
  have run := executes_exec p p.env.limits.maxFrames f.body before
  generalize exec p p.env.limits.maxFrames f.body before = r at quits run
  obtain ⟨o, m⟩ := r
  dsimp only
  rw [h.toReady.tick run]
  by_cases ho : o = .error .suspended
  · subst ho
    obtain ⟨j, g, inFlight, _⟩ := (run.leaves h.fits).suspends rfl
    have none : m.frames = [] := List.map_eq_nil_iff.1 quits.around
    have most := quits.most
    rw [none] at most
    refine .inr ⟨(h.toReady.next run).1, fun n frames deeper => ?_⟩
    change n.deeper = m.deeper at deeper
    refine ⟨by rw [frames, List.length_nil, Nat.zero_add], ?_, .own rfl ?_ (deeper ▸ inFlight), ?_⟩
    · rw [frames]
      exact .self
    · rw [frames, deeper]
      rfl
    · rw [frames, deeper]
      exact most
  · exact .inl ⟨(conclude_of_running ho m).2, frames_conclude ho f x m⟩

theorem Advances.arranged (h : p.Advances x) : x.status.isOver = true ∧ x.frames = [] ∨ ∃ f, p.Arranged f x := by
  induction h with
  | start h => exact .inr h.arranged
  | tick budget s _ ih =>
    rcases ih with ended | ⟨f, arranged⟩
    · rw [(tick_of_over ended.1 (p.withSteps budget) s).1]
      exact .inl ended
    · exact (arranged.tick budget s).imp_right fun h => ⟨f, h⟩
  | stop _ ih => exact ih.imp_right fun ⟨f, h⟩ => ⟨f, ⟨h.running, h.entry, h.program, h.fits⟩, h.surrounds⟩

theorem Arranged.visits {room : Nat} {i : Instr} {m : Machine} (h : p.Arranged f x) (visits : p.Visits x s room i m) :
    m.Surrounds p p.env.limits.maxFrames f.body x.frames (x.status = .suspended) room i := by
  obtain ⟨g, y, prepared, visits⟩ := visits
  obtain ⟨entry, _, ⟨_, rfl⟩ | ⟨unrestored, _⟩⟩ := prepare_right prepared
  · cases h.entry.symm.trans entry
    exact visits.surrounds (h.surrounds _ rfl rfl)
  · have restored : x.isRestored = true := List.all_eq_true.2 (live_of_fits h.fits)
    rw [restored] at unrestored
    cases unrestored

theorem Advances.visits {room : Nat} {i : Instr} {m : Machine} (h : p.Advances x) (visits : p.Visits x s room i m) :
    ∃ f, p.function? x.entry = some f ∧
      m.Surrounds p p.env.limits.maxFrames f.body x.frames (x.status = .suspended) room i := by
  rcases h.arranged with ⟨ended, _⟩ | ⟨f, arranged⟩
  · obtain ⟨_, _, prepared, _⟩ := visits
    obtain ⟨_, running, _⟩ := prepare_right prepared
    rw [ended] at running
    cases running
  · exact ⟨f, arranged.entry, arranged.visits visits⟩

/-- However an execution that was started is ticked, what is executed finds the frames of its ancestors and beneath them
nothing but its own, where it is resumed, or that of a function body that was entered. It has its frame whenever it
acts, changes those around it in variables only, and leaves none unless it is suspended. There are never more frames
than may be nested, or one, and a variable is read and written at a local of one of them. -/
theorem frames_disciplined (h : p.Advances x) :
    x.frames.length ≤ max 1 p.env.limits.maxFrames ∧
      (∀ budget s room i m, (p.withSteps budget).Visits x s room i m → ∃ f, p.function? x.entry = some f ∧
        m.Surrounds (p.withSteps budget) p.env.limits.maxFrames f.body x.frames (x.status = .suspended) room i ∧
        m.Disciplined (p.withSteps budget) p.env.limits.maxFrames room i) ∧
      (∀ (m : Machine) id v, m.read? (.var id) = some v → m.Indexes id) ∧
      ∀ {ι : Type} span (place : Place ι) grow m id m', locate span place grow m = (.ok (.var id), m') →
        m' = m ∧ m.Indexes id := by
  refine ⟨?_, fun budget s room i m visits => ?_, fun _ _ _ => Machine.indexes_of_read?, fun _ _ _ _ _ _ => locate_var⟩
  · rcases h.arranged with ⟨_, none⟩ | ⟨f, arranged⟩
    · rw [none]
      exact Nat.zero_le _
    · exact arranged.length_frames
  · obtain ⟨f, found, surrounds⟩ := (h.withSteps budget).visits visits
    exact ⟨f, found, surrounds, surrounds.disciplined⟩

theorem frames_disciplined_looping : looping.Advances looping.ticked ∧ looping.ticked.frames.length = 4 ∧
    ∃ room i m, (looping.withSteps 7).Visits looping.ticked .empty room i m ∧ m.frames.map Frame.node = [1, 0] ∧
      m.deeper.map Frame.node = [2, 3] ∧ m.Disciplined (looping.withSteps 7) 200 room i := by
  have main : looping.function? 0 = some looping.functions[0] := rfl
  have advances : looping.Advances looping.ticked := .tick 7 .empty (.start looping.starts)
  let resumed? := visit? (looping.withSteps 7) [0, 0] 200 looping.functions[0].body
    ((looping.withSteps 7).machine looping.ticked .empty)
  have nodes : resumed?.map (fun r => (r.2.2.frames.map Frame.node, r.2.2.deeper.map Frame.node)) =
      some ([1, 0], [2, 3]) := by decide +kernel
  obtain ⟨⟨room, i, m⟩, visited, nodes⟩ := Option.map_eq_some_iff.1 nodes
  obtain ⟨around, beneath⟩ := Prod.mk.inj nodes
  obtain ⟨_, disciplined, _⟩ := frames_disciplined advances
  have running : looping.ticked.status.isOver = false := by decide +kernel
  have entry : looping.ticked.entry = 0 := by decide +kernel
  obtain ⟨f, arranged⟩ := advances.arranged.resolve_left fun ended => Bool.eq_false_iff.1 running ended.1
  have found := arranged.entry
  rw [entry] at found
  obtain rfl := Option.some.inj (main.symm.trans found)
  have visits : (looping.withSteps 7).Visits looping.ticked .empty room i m :=
    ⟨_, _, arranged.prepare .empty 7, .of_visit? .root visited⟩
  obtain ⟨_, _, _, disciplined⟩ := disciplined 7 .empty room i m visits
  exact ⟨advances, by decide +kernel, room, i, m, visits, around, beneath, disciplined⟩

end Program
end Tickwise
