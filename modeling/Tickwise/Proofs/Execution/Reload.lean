import Tickwise.Proofs.Compile.Comparison
import Tickwise.Proofs.Compile.Units
import Tickwise.Proofs.Execution.Paths
import Tickwise.Proofs.Machine.Blame
import Tickwise.Proofs.Machine.Depth
import Tickwise.Proofs.Source.Pieces
import Tickwise.Proofs.Typing.Tags
set_option autoImplicit false

/-!
# Loading what was saved

Whatever a host can save can be loaded and restored again, except where a slot of the literal `null` came to
hold an array or an object, and except for a function without statements that was never ticked.
-/
namespace Tickwise

open Exec

theorem Fits.node_lt {p : Program} {P : Span → Prop} {n : Nat} (functions : ∀ f ∈ p.functions, f.Within P n)
    {i : Instr} {frames : List (Frame Variable)} (h : Fits p i frames) (hi : i.Within P n) :
    ∀ f ∈ frames, f.node < n := by
  induction frames generalizing i with
  | nil => nofun
  | cons f rest ih =>
    obtain ⟨node, _, _, beneath⟩ := h
    refine List.forall_mem_cons.2 ⟨node ▸ hi.id, ?_⟩
    split at beneath
    case h_1 c waits => exact ih beneath (hi.part (Form.mem_children_of_waiting waits))
    case h_2 id _ =>
      obtain ⟨g, found, _, beneath⟩ := beneath
      exact ih beneath (functions g (List.mem_of_getElem? found)).body
    case h_3 =>
      rw [beneath]
      nofun

namespace Program

variable {p : Program} {x x₀ : Execution Variable} {s s₀ : Session} {f : Function}

theorem Follows.reaches (h : p.Follows x₀ s₀ x s) (starts : p.Starts x₀) : p.Reaches p.Starts x := by
  induction h with
  | refl => exact .origin starts
  | tick budget _ ih => exact .tick _ _ ih
  | stop _ ih => exact .stop ih

theorem Follows.depth (h : p.Follows x₀ s₀ x s) (starts : p.Starts x₀) (room : 1 ≤ p.env.limits.maxFrames) :
    x.status.isOver = true ∨ x.frames.length ≤ p.env.limits.maxFrames := by
  induction h with
  | refl =>
    obtain ⟨id, f, params, _, rfl⟩ := starts.begin
    exact .inr room
  | @tick x s budget before ih =>
    rcases tick_cases (p.withSteps budget) x s with ⟨_, done⟩ | ⟨f, y, m, prepared, run, tick⟩
    · exact .inl done
    · obtain ⟨_, running, same⟩ := prepare_right prepared
      rw [running] at ih
      obtain ⟨g, _, fits, _⟩ := (before.reaches starts).frames.resolve_left (by rw [running]; nofun)
      have restored : x.isRestored = true := List.all_eq_true.2 (live_of_fits fits)
      obtain rfl : y = x := by
        rcases same with ⟨_, same⟩ | ⟨unrestored, _⟩
        · exact same
        · rw [restored] at unrestored
          cases unrestored
      rw [tick]
      exact .inr (run.deeper_le (ih.resolve_left nofun))
  | stop _ ih => exact ih

theorem Follows.ready (h : p.Follows x₀ s₀ x s) (starts : p.Starts x₀) (ready : x.status = .ready) :
    ∃ f params, p.function? x.entry = some f ∧ x.frames = [Frame.ofCall f.body.id params] := by
  induction h with
  | refl =>
    obtain ⟨id, f, params, found, rfl⟩ := starts.begin
    exact ⟨f, params, found, rfl⟩
  | @tick x s budget _ _ =>
    rcases tick_cases (p.withSteps budget) x s with ⟨_, done⟩ | ⟨f, y, m, _, _, tick⟩
    · rw [ready] at done
      cases done
    · rw [tick] at ready
      cases ready
  | stop _ ih => exact ih ready

theorem span_of_verdict {P : Span → Prop} {o : Except Interrupt Variable} {h : Heap} {error : RuntimeError}
    (name : P f.span) (blames : ∀ e, o = .error e → e.Blames P) (faulted : verdict f o h = .faulted error) :
    P error.span := by
  unfold verdict at faulted
  split at faulted
  case h_1 => cases faulted
  case h_2 =>
    split at faulted
    · cases faulted
    · cases faulted
      exact name
    · cases faulted
      exact name
  case h_3 e =>
    cases faulted
    exact blames _ rfl _ rfl
  case h_4 =>
    cases faulted
    exact name
  case h_5 =>
    split at faulted
    · cases faulted
    · cases faulted
      exact name

theorem Follows.blames {P : Span → Prop} {n : Nat} (h : p.Follows x₀ s₀ x s) (starts : p.Starts x₀)
    (functions : ∀ f ∈ p.functions, f.Within P n) :
    (∀ e ∈ x.fault, P e.span) ∧ (x.status.isOver = true ∨
      ∃ f, p.Ready f x ∧ Remembering p P f.body x.frames) := by
  induction h with
  | refl =>
    obtain ⟨id, f, params, found, rfl⟩ := starts.begin
    exact ⟨nofun, .inr ⟨f, ⟨rfl, found, rfl, fits_start p f.body _ rfl rfl rfl⟩, .single (.of_start rfl)⟩⟩
  | stop _ ih =>
    obtain ⟨fault, done | ⟨f, ready, remembers⟩⟩ := ih
    · exact ⟨fault, .inl done⟩
    · exact ⟨fault, .inr ⟨f, ⟨ready.running, ready.entry, ready.program, ready.fits⟩, remembers⟩⟩
  | @tick x s budget _ ih =>
    obtain ⟨fault, done | ⟨f, ready, remembers⟩⟩ := ih
    · rw [(tick_of_over done (p.withSteps budget) s).1]
      exact ⟨fault, .inl done⟩
    · have within := functions f (List.mem_of_getElem? ready.entry)
      have fits : Fits (p.withSteps budget) f.body x.frames := (fits_inEnvironment ..).2 ready.fits
      obtain ⟨o, m, run⟩ := Executes.total (p.withSteps budget) p.env.limits.maxFrames f.body
        ((p.withSteps budget).machine x s)
      have blaming := run.blaming (fun g hg => (functions g hg).body) within.body fits
        ((along_inEnvironment ..).2 remembers)
      rw [tick_of_prepare (ready.prepare s budget) run]
      unfold conclude
      dsimp only
      split
      case h_1 suspended =>
        have waits := suspended_of_verdict suspended
        obtain ⟨j, g, inFlight, _⟩ := (run.leaves fits).suspends waits
        refine ⟨fault, .inr ⟨f, ⟨rfl, ready.entry, ready.program, ?_⟩, ?_⟩⟩
        · exact (fits_inEnvironment ..).1 inFlight.fits
        · exact (along_inEnvironment ..).1 (blaming.remembers waits)
      case h_2 => exact ⟨fault, .inl rfl⟩
      case h_3 error faulted =>
        refine ⟨fun e he => ?_, .inl rfl⟩
        cases he
        exact span_of_verdict within.span blaming.interrupt faulted

theorem restore_ready {ν : Type} {x : Execution ν} {body : List Instr} {g : Frame ν}
    (entry : p.function? x.entry = some f) (block : f.body.form = .block body) (frames : x.frames = [g])
    (node : g.node = f.body.id) (position : g.state = 0 ∧ g.index = 0) (call : g.call = true)
    (dead : g.live = false) : (p.restore x).1 = none ↔ body ≠ [] := by
  have waits : f.body.waiting g.state g.index = .beforeEntry body 0 := by
    unfold Instr.waiting
    rw [block, position.1, position.2]
    rfl
  constructor
  · intro accepted
    have path := onPath_of_restore (by rw [frames]; exact List.forall_mem_singleton.2 dead) accepted
    rintro rfl
    rcases path with none | ⟨f', own, rest, entry', frames', _, path⟩
    · rw [frames] at none
      cases none
    · cases entry.symm.trans entry'
      cases frames.symm.trans frames'
      cases path with
      | last _ known => exact known waits
  · intro nonempty
    obtain ⟨c, rest, rfl⟩ := List.exists_cons_of_ne_nil nonempty
    have path : Path p f.body [g] :=
      .last node (by rw [waits]; nofun) fun id => by rw [waits]; nofun
    have onPath : p.OnPath x := .inr ⟨f, g, [], entry, frames, call, path⟩
    rw [onPath.restore]

/-- An execution was started with arguments of the types of the parameters, in storage that is typed and
marked in a way. -/
def BeginsAs (p : Program) (M : Marking) (x : Execution Variable) (s : Session) : Prop :=
  ∃ id f args, ∃ S : MarkedShapes, p.function? id = some f ∧ S.marking = M ∧ S.class? = p.class? ∧
    S.Describes s.heap ∧ List.Forall₂ (fun q v => S.Has q.ty v.value) f.params args ∧
    p.startFunction? id args s.heap = some x

theorem BeginsAs.starts {M : Marking} (h : p.BeginsAs M x s) : p.Starts x := by
  obtain ⟨id, f, args, S, _, _, _, _, _, start⟩ := h
  exact .byPosition start

theorem Follows.stands_of_beginsAs {D : Declarations} {M : Marking} (follows : p.Follows x₀ s₀ x s)
    (begins : p.BeginsAs M x₀ s₀) (hp : p.Keeps D M) :
    ∃ S : MarkedShapes, S.marking = M ∧ p.Stands D S x s := by
  obtain ⟨id, f, args, S, found, rfl, classes, described, has, start⟩ := begins
  have begun := holds_of_start hp.typed found classes described has start
  obtain ⟨S', le, stands⟩ := follows.stands (.inl ⟨f, begun⟩) hp
  exact ⟨S', le.marking, stands⟩

section Compiled

variable {id source : String} {env : Environment}

theorem readable_iff (compiled : Program.ofSource id env source = .ok p) (room : 1 ≤ p.env.limits.maxFrames)
    {D : Declarations} {S : MarkedShapes} (close : S.marking = .close) (stands : p.Stands D S x s)
    (starts : p.Starts x₀) (follows : p.Follows x₀ s₀ x s) :
    x.Readable p s.heap ↔
      (∀ v ∈ x.slots, s.heap.Strayless v) ∧ ∀ e ∈ x.fault, ¬ e.span.stop < e.span.start := by
  obtain ⟨described, slots⟩ := stands.slots
  have fits : (∀ v ∈ x.slots, s.heap.FitsThroughout v) ↔ ∀ v ∈ x.slots, s.heap.Strayless v := by
    refine forall₂_congr fun v hv => ?_
    obtain ⟨ty, slot⟩ := slots v hv
    exact slot.fitsThroughout_iff described close
  refine ⟨fun readable => ⟨fits.1 readable.fits, readable.range⟩, fun ⟨strayless, range⟩ => ?_⟩
  have program : x.programId = p.id := by
    rcases stands with ⟨f, h⟩ | h <;> exact h.program
  have depth : x.frames.length ≤ p.env.limits.maxFrames := by
    rcases stands with ⟨f, h⟩ | h
    · exact (follows.depth starts room).resolve_left (by rw [h.running]; nofun)
    · rw [h.frames]
      exact Nat.zero_le _
  have nodes : ∀ f ∈ x.frames, f.node < p.nodeCount := by
    rcases stands with ⟨f, h⟩ | h
    · have within := within_ofTokens (P := fun _ => True) (fun _ _ => trivial) compiled
      exact h.fits.node_lt within (within f (List.mem_of_getElem? h.entry)).body
    · rw [h.frames]
      nofun
  exact ⟨program, range, depth, nodes, fits.2 strayless⟩

/-- What was read back is accepted unless it is a function without statements that was never ticked. -/
theorem restore_iff_of_reread {A : Variable → Variable → Prop} {y : Execution Variable}
    (compiled : Program.ofSource id env source = .ok p) {D : Declarations} {S : MarkedShapes}
    (stands : p.Stands D S x s) (starts : p.Starts x₀) (follows : p.Follows x₀ s₀ x s)
    (alike : x.reread.Alike A y) : (p.restore y).1 = none ↔
      ¬ (x.status = .ready ∧ ∃ f, p.function? x.entry = some f ∧ f.body.form = .block []) := by
  rw [← alike.restore.1]
  rcases stands with ⟨f, h⟩ | h
  · cases hs : x.status with
    | ready =>
      obtain ⟨f', params, entry, frames⟩ := follows.ready starts hs
      cases h.entry.symm.trans entry
      have within := within_ofTokens (P := fun _ => True) (fun _ _ => trivial) compiled
      obtain ⟨body, block⟩ := (within f (List.mem_of_getElem? entry)).braced
      have single : x.reread.frames = [(Frame.ofCall f.body.id params).unmarked] := congrArg (List.map _) frames
      have accepted := restore_ready (x := x.reread) h.entry block single rfl ⟨rfl, rfl⟩ rfl rfl
      refine accepted.trans (not_congr ⟨?_, ?_⟩)
      · rintro rfl
        exact ⟨rfl, f, entry, block⟩
      · rintro ⟨_, f', entry', empty⟩
        cases entry.symm.trans entry'
        cases block.symm.trans empty
        rfl
    | suspended =>
      obtain ⟨g, entry, _, call, inFlight⟩ :=
        (follows.reaches starts).frames.resolve_left (by rw [h.running]; nofun)
      obtain ⟨j, own, inFlight⟩ := inFlight hs
      let z : Execution Variable := { x with fault := x.fault.map RuntimeError.reread, stop := false }
      have accepted : p.restore x.reread = (none, z) := InFlight.restore (x := z) entry call inFlight
      rw [accepted]
      exact ⟨fun _ ⟨ready, _⟩ => (nomatch ready), fun _ => rfl⟩
    | _ =>
      have running := h.running
      rw [hs] at running
      cases running
  · have none : x.reread.frames = [] := by
      change x.frames.map _ = []
      rw [h.frames]
      rfl
    have accepted : p.OnPath x.reread := .inl none
    rw [accepted.restore]
    refine ⟨fun _ ⟨ready, _⟩ => ?_, fun _ => rfl⟩
    have done := h.done
    rw [ready] at done
    cases done

theorem Follows.ordered (follows : p.Follows x₀ s₀ x s) (compiled : Program.ofSource id env source = .ok p)
    (starts : p.Starts x₀) (countable : byteLength source.toList < UInt32.size) :
    ∀ e ∈ x.fault, ¬ e.span.stop < e.span.start :=
  (follows.blames (P := fun span => ¬ span.stop < span.start) starts
    (within_ofTokens (fun _ => Lexer.ordered_of_mem_tokens countable) compiled)).1

/-- What is saved in a run of a compiled program is loaded again unless a slot of the type of the literal
`null` came to hold an array or an object, or the range of a fault is inverted, which takes a source with
more bytes than a position can count. What is loaded is restored unless it is a function without statements
that was never ticked. -/
theorem reloads_iff (compiled : Program.ofSource id env source = .ok p)
    (natives : ∀ f ∈ p.env.natives.natives, f.KeepsTypesAs .close p.class?)
    (room : 1 ≤ p.env.limits.maxFrames) (begins : p.BeginsAs .close x₀ s₀)
    (follows : p.Follows x₀ s₀ x s) {bytes : List UInt8} (save : (x.save s.heap).toExcept = .ok bytes)
    (k : Heap) :
    ((∃ y, p.load bytes k = .ok y) ↔
      (∀ v ∈ x.slots, s.heap.Strayless v) ∧ ∀ e ∈ x.fault, ¬ e.span.stop < e.span.start) ∧
    (byteLength source.toList < UInt32.size → ∀ e ∈ x.fault, ¬ e.span.stop < e.span.start) ∧
    ∀ y k', p.load bytes k = .ok (y, k') → ((p.restore y).1 = none ↔
      ¬ (x.status = .ready ∧ ∃ f, p.function? x.entry = some f ∧ f.body.form = .block [])) := by
  obtain ⟨D, hp⟩ := keeps_ofTokens compiled natives
  obtain ⟨S, close, stands⟩ := follows.stands_of_beginsAs begins hp
  rw [← readable_iff compiled room close stands begins.starts follows]
  refine ⟨⟨fun ⟨y, loaded⟩ => Execution.readable_of_load save loaded, fun readable => ?_⟩,
    follows.ordered compiled begins.starts, ?_⟩
  · obtain ⟨y, k', loaded, _⟩ := readable.load save k
    exact ⟨(y, k'), loaded⟩
  · intro y k' loaded
    obtain ⟨y', k'', loaded', alike, _⟩ := (Execution.readable_of_load save loaded).load save k
    cases loaded.symm.trans loaded'
    exact restore_iff_of_reread compiled stands begins.starts follows alike

end Compiled

/-!
Two programs that are started without arguments in empty storage. The first puts an array where its list
had `null`, and the second has nothing to do.
-/
namespace Replaced

def environment : Environment := { Environment.empty with limits := ⟨200, 2⟩ }

def source : String := "void main() { int a[][] = { null }; int b[1]; a[0] = b; return; }"

def number (id : NodeId) (span : Span) (i : Int32) : Instr := .mk id span (.literal (Slot.ofInt i))

def body : Instr :=
  .mk 13 ⟨12, 13⟩ (.block [
    .mk 3 ⟨14, 17⟩ (.declList [.mk 2 ⟨18, 19⟩ (.declare 1 "a" (.array (.array .int)) [] (some
      (.mk 1 ⟨26, 27⟩ (.list (.array (.array .int)) [.mk 0 ⟨28, 32⟩ (.literal (Slot.ofNull .null))]))))]),
    .mk 6 ⟨36, 39⟩ (.declList [.mk 5 ⟨40, 41⟩ (.declare 2 "b" (.array .int) [number 4 ⟨42, 43⟩ 1] none)]),
    .mk 11 ⟨51, 52⟩ (.store ⟨1, "a", [.index (number 8 ⟨48, 49⟩ 0) (.array .int)], .array .int⟩ none
      (.array .int) (.mk 10 ⟨53, 54⟩ (.load ⟨2, "b", [], .array .int⟩))),
    .mk 12 ⟨56, 62⟩ (.ret none)])

def main (body : Instr) : Function := ⟨0, "main", [], .void, body, false, ⟨5, 9⟩⟩

def program (body : Instr) (nodeCount : Nat) : Program := ⟨"test", [main body], [], nodeCount, environment⟩

def begun (body : Instr) : Execution Variable := .begin "test" 0 (main body) []

def ticked (budget : Nat) : TickResult := ((program body 14).withSteps budget).tick (begun body) .empty

def idle : Instr := .mk 0 ⟨12, 13⟩ (.block [])

theorem compiled : ofSource "test" environment source = .ok (program body 14) :=
  ofSource_eq 20 (by decide +kernel) rfl

theorem begins (body : Instr) (nodeCount : Nat) :
    (program body nodeCount).BeginsAs .close (begun body) .empty := by
  let S : MarkedShapes := ⟨⟨(program body nodeCount).class?, fun _ => none⟩, .close⟩
  exact ⟨0, main body, [], S, rfl, rfl, rfl, ⟨nofun, nofun⟩, .nil, rfl⟩

theorem follows (budget : Nat) :
    (program body 14).Follows (begun body) .empty (ticked budget).execution (ticked budget).session :=
  .tick budget .refl

theorem reloads_declared : ∃ bytes y k,
    ((ticked 2).execution.save (ticked 2).session.heap).toExcept = .ok bytes ∧
    (ticked 2).execution.status = .suspended ∧ (program body 14).load bytes .empty = .ok (y, k) ∧
    (∀ v ∈ (ticked 2).execution.slots, (ticked 2).session.heap.Strayless v) ∧
    ((program body 14).restore y).1 = none := by
  obtain ⟨bytes, save, loads⟩ : ∃ bytes,
      ((ticked 2).execution.save (ticked 2).session.heap).toExcept = .ok bytes ∧
      ((program body 14).load bytes .empty).toOption.any (fun _ => true) = true :=
    ok_of_any (by decide +kernel)
  obtain ⟨⟨y, k⟩, load, _⟩ := ok_of_any loads
  have suspended : (ticked 2).execution.status = .suspended := by decide +kernel
  obtain ⟨readable, _, restored⟩ :=
    reloads_iff compiled nofun (by decide) (begins body 14) (follows 2) save .empty
  refine ⟨bytes, y, k, save, suspended, load, (readable.1 ⟨_, load⟩).1, (restored y k load).2 ?_⟩
  rw [suspended]
  exact fun ⟨ready, _⟩ => nomatch ready

/-- Neither execution comes back: the first is not loaded when the array was put there, and the second is
not restored before its first tick. -/
theorem not_reloads_replaced :
    (ofSource "test" environment source = .ok (program body 14) ∧
      (program body 14).BeginsAs .close (begun body) .empty ∧
      (program body 14).Follows (begun body) .empty (ticked 3).execution (ticked 3).session ∧
      ∃ bytes, ((ticked 3).execution.save (ticked 3).session.heap).toExcept = .ok bytes ∧
        ∀ y, (program body 14).load bytes .empty ≠ .ok y) ∧
    ofSource "test" environment "void main() { }" = .ok (program idle 1) ∧
      (program idle 1).BeginsAs .close (begun idle) .empty ∧
      ∃ bytes y k, ((begun idle).save .empty).toExcept = .ok bytes ∧
        (program idle 1).load bytes .empty = .ok (y, k) ∧
        ((program idle 1).restore y).1 = some (.badPosition 0 0 0) := by
  have quiet : ofSource "test" environment "void main() { }" = .ok (program idle 1) := ofSource_eq 20 (by decide +kernel) rfl
  refine ⟨⟨compiled, begins body 14, follows 3, ?_⟩, quiet, begins idle 1, ?_⟩
  · obtain ⟨bytes, save, fails⟩ : ∃ bytes,
        ((ticked 3).execution.save (ticked 3).session.heap).toExcept = .ok bytes ∧
        ((program body 14).load bytes .empty).toOption.isNone = true :=
      ok_of_any (by decide +kernel)
    refine ⟨bytes, save, fun y load => ?_⟩
    rw [load] at fails
    cases fails
  · obtain ⟨bytes, save, loads⟩ : ∃ bytes, ((begun idle).save .empty).toExcept = .ok bytes ∧
        ((program idle 1).load bytes .empty).toOption.any
          (fun r => ((program idle 1).restore r.1).1 = some (.badPosition 0 0 0)) = true :=
      ok_of_any (by decide +kernel)
    obtain ⟨⟨y, k⟩, load, refused⟩ := ok_of_any loads
    exact ⟨bytes, y, k, save, load, of_decide_eq_true refused⟩

end Replaced

end Program
end Tickwise
