import Tickwise.Proofs.Codec.Execution
import Tickwise.Proofs.Compile.Comparison
import Tickwise.Proofs.Execution.Budget
import Tickwise.Proofs.Execution.Paths
import Tickwise.Proofs.Typing.Units
set_option autoImplicit false

/-!
# Saving between ticks

An execution that is saved between ticks, loaded and restored goes on as one that is not, in storage that
mirrors that of the other, as long as none of its arrays and objects is held twice when it is saved. What is
held twice comes back as two.
-/
namespace Tickwise

theorem Journal.alike_refl (j : Journal) : j.Alike j := by
  refine ⟨List.forall₂_same.2 fun i _ => ⟨rfl, ⟨Eq, ?_, ?_⟩, rfl, rfl, rfl⟩, rfl⟩
  · rintro r _ rfl
    exact List.forall₂_same.2 fun v _ => .refl fun _ _ => rfl
  · exact List.forall₂_same.2 fun v _ => .refl fun _ _ => rfl

namespace Heap

variable {h k l : Heap} {R S : Ref → Ref → Prop}

theorem Mirrors.comp (first : h.Mirrors R k) (second : k.Mirrors S l) :
    h.Mirrors (Relation.Comp R S) l where
  unique := by
    refine ⟨?_, ?_⟩
    · rintro r q r' ⟨m, hr, hq⟩ ⟨m', hr', hq'⟩
      cases second.unique.1 hq hq'
      exact first.unique.1 hr hr'
    · rintro r q q' ⟨m, hr, hq⟩ ⟨m', hr', hq'⟩
      cases first.unique.2 hr hr'
      exact second.unique.2 hq hq'
  within := by
    rintro r q ⟨m, hr, hq⟩
    exact ⟨(first.within r m hr).1, (second.within m q hq).2⟩
  alike := by
    rintro r q ⟨m, hr, hq⟩
    exact forall₂_comp (first.alike r m hr) (second.alike m q hq) fun _ _ _ => Slot.Alike.comp

theorem Mirrors.refs_lt (mirrors : h.Mirrors R k) {v w : Variable} (alike : v.Alike R w) {depth : Nat} :
    ∀ q : Nat, q ∈ k.refs depth w → q < k.size := by
  induction depth generalizing v w with
  | zero => nofun
  | succ depth ih =>
    have value := alike.value
    intro q hq
    unfold refs at hq
    generalize v.value = a at value
    generalize w.value = b at value hq
    have stored {r m : Ref} (paired : R r m)
        (mem : q ∈ m :: (k.elements m).toList.flatMap (k.refs depth)) : q < k.size := by
      rcases List.mem_cons.1 mem with rfl | mem
      · exact (mirrors.within r q paired).2
      · obtain ⟨e, he, mem⟩ := List.mem_flatMap.1 mem
        obtain ⟨d, _, slot⟩ := forall₂_exists_left (mirrors.alike r m paired) he
        exact ih slot q mem
    cases value with
    | array paired => exact stored paired hq
    | object cls paired => exact stored paired hq
    | _ => cases hq

/-- What is stored refers to what is stored. -/
def Closed (h : Heap) : Prop :=
  ∀ r, ∀ v ∈ (h.elements r).toList, ∀ q : Nat, v.value.storage? = some q → q < h.size

theorem Closed.mirrors (closed : h.Closed) : h.Mirrors (fun r q : Nat => r = q ∧ r < h.size) h where
  unique := ⟨fun r q r' first second => first.1.trans second.1.symm,
    fun r q q' first second => first.1.symm.trans second.1⟩
  within := by
    rintro r q ⟨rfl, inside⟩
    exact ⟨inside, inside⟩
  alike := by
    rintro r q ⟨rfl, _⟩
    exact List.forall₂_same.2 fun v hv => .refl fun q hq => ⟨rfl, closed r v hv q hq⟩

end Heap

/-- No array or object is held twice by the variables of an execution. -/
def Execution.Unshared (h : Heap) (x : Execution Variable) : Prop :=
  (x.slots.flatMap (h.refs maxDepth)).Nodup

instance (h : Heap) (x : Execution Variable) : Decidable (x.Unshared h) :=
  inferInstanceAs (Decidable (List.Nodup _))

namespace Program

/-- The outcome of at most `count` ticks and the session afterwards, where some of the executions that were
suspended, all of them as `admits` says, are replaced by what they are saved, loaded and restored as. -/
inductive Persisted (p : Program) (admits : Heap → Execution Variable → Prop) :
    (count : Nat) → Execution Variable → Session → Tick → Session → Prop
  | start (x : Execution Variable) (s : Session) : Persisted p admits 0 x s .suspended s
  | last {count : Nat} {x : Execution Variable} {s : Session}
      (final : (p.tick x s).tick.isFinal = true) :
      Persisted p admits (count + 1) x s (p.tick x s).tick (p.tick x s).session
  | next {count : Nat} {x : Execution Variable} {s t : Session} {tick : Tick}
      (suspended : (p.tick x s).tick.isFinal = false)
      (rest : Persisted p admits count (p.tick x s).execution (p.tick x s).session tick t) :
      Persisted p admits (count + 1) x s tick t
  | saved {count : Nat} {x y z : Execution Variable} {s t : Session} {tick : Tick} {bytes : List UInt8}
      {k k' : Heap} (suspended : (p.tick x s).tick.isFinal = false)
      (admitted : admits (p.tick x s).session.heap (p.tick x s).execution)
      (save : ((p.tick x s).execution.save (p.tick x s).session.heap).toExcept = .ok bytes)
      (load : p.load bytes k = .ok (y, k')) (restore : p.restore y = (none, z))
      (rest : Persisted p admits count z ⟨k', (p.tick x s).session.journal⟩ tick t) :
      Persisted p admits (count + 1) x s tick t

variable {p : Program} {x y z : Execution Variable} {s t : Session} {h k : Heap} {R : Ref → Ref → Prop}

structure Underway (p : Program) (x : Execution Variable) : Prop where
  resumable : p.Resumable x
  fault : x.fault = none
  stop : x.stop = false

theorem Starts.underway (h : p.Starts x) : p.Underway x := by
  obtain ⟨f, found, fits, _⟩ := h.fits
  obtain ⟨id, f', params, _, rfl⟩ := h.begin
  refine ⟨fun g hg => ?_, rfl, rfl⟩
  cases found.symm.trans hg
  exact .inl fits

theorem Underway.tick (h : p.Underway x) (suspended : (p.tick x s).tick.isFinal = false) :
    p.Underway (p.tick x s).execution ∧ ∀ f ∈ (p.tick x s).execution.frames, f.live = true := by
  rcases p.tick_cases x s with ⟨final, _⟩ | ⟨f, y, m, prepared, run, tick⟩
  · rw [suspended] at final
    cases final
  · obtain ⟨found, _, entry, _⟩ := h.resumable.prepare prepared
    obtain ⟨⟨j, g, inFlight, _⟩, _⟩ := h.resumable.suspends prepared run
    have kept : y.fault = x.fault ∧ y.stop = x.stop := by
      obtain ⟨_, _, ⟨_, rfl⟩ | ⟨_, restored⟩⟩ := prepare_right prepared
      · exact ⟨rfl, rfl⟩
      · rw [frames_restore restored]
        exact ⟨rfl, rfl⟩
    rw [tick]
    refine ⟨⟨fun f' hf => ?_, kept.1.trans h.fault, kept.2.trans h.stop⟩, inFlight.live⟩
    have same : p.function? y.entry = some f' := hf
    rw [entry, found] at same
    cases same
    exact .inl inFlight.fits

end Program

theorem Execution.Alike.marked {A : Variable → Variable → Prop} {x y : Execution Variable}
    (alike : x.reread.Alike A y) (live : ∀ f ∈ x.frames, f.live = true) (fault : x.fault = none)
    (stop : x.stop = false) : x.Alike A { y with frames := y.frames.map Frame.marked } where
  programId := alike.programId
  entry := alike.entry
  status := alike.status
  frames := alike.frames_marked live
  result := alike.result
  fault := by
    rw [← alike.fault, fault]
    change none = x.fault.map _
    rw [fault]
    rfl
  stop := stop.trans alike.stop

namespace Program

variable {p : Program} {x y z : Execution Variable} {s t : Session} {h k : Heap} {R : Ref → Ref → Prop}

theorem Underway.reload {bytes : List UInt8} {k k' : Heap} (underway : p.Underway x)
    (live : ∀ f ∈ x.frames, f.live = true) (within : ∀ r : Nat, r ∈ x.slots.flatMap (h.refs maxDepth) → r < h.size)
    (unshared : x.Unshared h) (save : (x.save h).toExcept = .ok bytes) (load : p.load bytes k = .ok (y, k'))
    (restore : p.restore y = (none, z)) :
    p.Underway z ∧ ∃ S, h.Mirrors S k' ∧ x.Alike (Slot.Alike S) z := by
  obtain ⟨y', k'', loaded, twins, fresh, nodup⟩ := (Execution.readable_of_load save load).load save k
  cases loaded.symm.trans load
  have slots := twins.slots
  rw [Execution.slots_reread] at slots
  obtain ⟨S, mirrors, alike⟩ := Heap.mirrors_of_twins slots within (fun q hq => (fresh q hq).2) unshared nodup
  have dead : ∀ f ∈ y.frames, f.live = false := Loads.dead ⟨bytes, k, k', load⟩
  have marked := (onPath_of_restore dead (by rw [restore])).restore
  rw [restore] at marked
  have same : x.Alike (Slot.Alike S) z := by
    have positions := twins.of_slots (B := Slot.Alike S) (by rw [Execution.slots_reread]; exact alike)
    rw [(Prod.mk.inj marked).2]
    exact positions.marked live underway.fault underway.stop
  refine ⟨⟨fun f hf => ?_, same.fault ▸ underway.fault, same.stop ▸ underway.stop⟩, S, mirrors, same⟩
  have entry : z.entry = y.entry := (p.entry_restore restore).1
  exact .inl (p.fits_restore (entry ▸ hf) dead restore)

theorem Persisted.alike {count : Nat} {tick : Tick} (hp : p.OnContent)
    (persisted : p.Persisted Execution.Unshared count x s tick t) (underway : p.Underway x)
    {y : Execution Variable} {s' : Session} (same : y.Alike (Slot.Alike R) x) (sessions : s'.Alike R s) :
    ∃ R', (p.run count y s').tick.Alike R' tick ∧ (p.run count y s').session.Alike R' t := by
  induction persisted generalizing y s' R with
  | start x s => exact ⟨R, .suspended, sessions⟩
  | @last count x s final =>
    obtain ⟨R', _, alike⟩ := tick_alike hp same sessions
    have final' : (p.tick y s').tick.isFinal = true := by rw [alike.tick.isFinal, final]
    rw [run_of_final count final']
    exact ⟨R', alike.tick, alike.session⟩
  | @next count x s t tick suspended rest ih =>
    obtain ⟨R', _, alike⟩ := tick_alike hp same sessions
    have suspended' : (p.tick y s').tick.isFinal = false := by rw [alike.tick.isFinal, suspended]
    obtain ⟨ticks, ends⟩ := run_of_suspended count suspended'
    rw [ticks, ends]
    exact ih (underway.tick suspended).1 alike.execution alike.session
  | @saved count x _ z s t tick bytes k k' suspended unshared save load restore rest ih =>
    obtain ⟨R', _, alike⟩ := tick_alike hp same sessions
    have suspended' : (p.tick y s').tick.isFinal = false := by rw [alike.tick.isFinal, suspended]
    obtain ⟨ticks, ends⟩ := run_of_suspended count suspended'
    rw [ticks, ends]
    obtain ⟨going, live⟩ := underway.tick suspended
    have within (r : Nat)
        (mem : r ∈ (p.tick x s).execution.slots.flatMap ((p.tick x s).session.heap.refs maxDepth)) :
        r < (p.tick x s).session.heap.size := by
      obtain ⟨v, hv, mem⟩ := List.mem_flatMap.1 mem
      obtain ⟨w, _, slot⟩ := forall₂_exists_left alike.execution.slots hv
      exact alike.session.heap.refs_lt slot r mem
    obtain ⟨underway, S, mirrors, loaded⟩ := going.reload live within unshared save load restore
    have through := alike.execution.comp loaded fun _ _ _ => Slot.Alike.comp
    exact ih underway through ⟨alike.session.heap.comp mirrors, alike.session.journal⟩

theorem closed_of_typed {D : Declarations} {ret : Ty} {i : Instr} (typed : i.Typed D ret) : i.Closed := by
  induction typed with
  | @intro i checks _ ih =>
    refine .intro (fun v hv => ?_) ih
    rw [hv] at checks
    -- no reference has a type where nothing is stored
    have has := checks ⟨fun _ => none, fun _ => none⟩
    cases hty : v.ty with
    | array elem =>
      rw [hty] at has
      rcases has with value | ⟨r, _, stored⟩
      · rw [value]; rfl
      · cases stored
    | named c =>
      rw [hty] at has
      rcases has with value | ⟨r, cls, _, known, _⟩
      · rw [value]; rfl
      · cases known
    | void | null =>
      rw [hty] at has
      rw [show v.value = _ from has]
      rfl
    | _ =>
      rw [hty] at has
      obtain ⟨_, value⟩ := has
      rw [value]
      rfl

theorem onContent_ofSource {id source : String} {env : Environment}
    (compiled : Program.ofSource id env source = .ok p)
    (natives : ∀ f ∈ p.env.natives.natives, f.DependsOnContent) : p.OnContent := by
  obtain ⟨D, typed⟩ := typed_ofTokens compiled
  exact ⟨fun f hf => closed_of_typed (typed.functions f hf).body, natives⟩

theorem session_alike (closed : s.heap.Closed) :
    s.Alike (fun r q : Nat => r = q ∧ r < s.heap.size) s where
  heap := closed.mirrors
  journal := s.journal.alike_refl

/-- A run of a compiled program ends with the same outcome, after the same invocations of natives, whenever
it was saved, loaded and restored in between, if nothing that was stored was held twice then. Its natives
depend on content. -/
theorem run_persisted {id source : String} {env : Environment}
    (compiled : Program.ofSource id env source = .ok p)
    (natives : ∀ f ∈ p.env.natives.natives, f.DependsOnContent) {entry : FunctionId} {args : List Variable}
    (stored : s.heap.Closed)
    (args_stored : ∀ v ∈ args, ∀ r : Nat, v.value.storage? = some r → r < s.heap.size)
    (start : p.startFunction? entry args s.heap = some x) {count : Nat} {tick : Tick}
    (persisted : p.Persisted Execution.Unshared count x s tick t) :
    ∃ R, (p.run count x s).tick.Alike R tick ∧ (p.run count x s).session.Alike R t := by
  let R : Ref → Ref → Prop := fun r q : Nat => r = q ∧ r < s.heap.size
  have sessions : s.Alike R s := session_alike stored
  have same : x.Alike (Slot.Alike R) x := by
    obtain ⟨f, params, _, bound, rfl⟩ := begin_of_startFunction? start
    have values : args.Forall₂ (Slot.Alike R) args :=
      List.forall₂_same.2 fun v hv => .refl fun r hr => ⟨rfl, args_stored v hv r hr⟩
    have params_alike := Exec.Alike.bindParams_alike sessions.heap.alike f.params values
    rw [bound] at params_alike
    cases params_alike with
    | ok alike => exact ⟨rfl, rfl, rfl, .cons (Frame.alike_ofCall _ alike) .nil, .none, rfl, rfl⟩
  exact persisted.alike (onContent_ofSource compiled natives) (Starts.byPosition start).underway same sessions

def reloaded (p : Program) (r : TickResult) : Option (Execution Variable × Heap) :=
  match (r.execution.save r.session.heap).toExcept with
  | .error _ => none
  | .ok bytes =>
    match p.load bytes .empty with
    | .error _ => none
    | .ok (y, h) =>
      match p.restore y with
      | (none, z) => some (z, h)
      | (some _, _) => none

theorem persisted_of_reloaded {admits : Heap → Execution Variable → Prop} {tick : Tick}
    (suspended : (p.tick x s).tick.isFinal = false)
    (admitted : admits (p.tick x s).session.heap (p.tick x s).execution) (final : tick.isFinal = true)
    (ends : (p.reloaded (p.tick x s)).map (fun r => (p.tick r.1 ⟨r.2, (p.tick x s).session.journal⟩).tick) =
      some tick) : ∃ t, p.Persisted admits 2 x s tick t := by
  obtain ⟨⟨z, h⟩, loaded, rfl⟩ := Option.map_eq_some_iff.1 ends
  unfold reloaded at loaded
  split at loaded
  case h_1 => cases loaded
  case h_2 bytes save =>
    split at loaded
    case h_1 => cases loaded
    case h_2 y k load =>
      split at loaded
      case h_2 => cases loaded
      case h_1 restore =>
        cases loaded
        exact ⟨_, .saved suspended admitted save load restore (.last final)⟩

/-!
Two programs of two ticks each. When the first is saved it has one variable for its array, and the second
has two.
-/
namespace Doubled

def environment : Environment := { Environment.empty with limits := ⟨200, 2⟩ }

def single : String := "int main() { int a[1]; a[0] = 5; return a[0]; }"

def double : String := "int main() { int a[1]; int b[] = a; a[0] = 5; return b[0]; }"

def number (id : NodeId) (span : Span) (i : Int32) : Instr := .mk id span (.literal (Slot.ofInt i))

def first (id : NodeId) (span : Span) (root : VarId) (name : String) : Place Instr :=
  ⟨root, name, [.index (number id span 0) .int], .int⟩

def declaration : Instr :=
  .mk 2 ⟨13, 16⟩ (.declList [.mk 1 ⟨17, 18⟩ (.declare 1 "a" (.array .int) [number 0 ⟨19, 20⟩ 1] none)])

def singleBody : Instr :=
  .mk 12 ⟨11, 12⟩ (.block [declaration,
    .mk 7 ⟨28, 29⟩ (.store (first 4 ⟨25, 26⟩ 1 "a") none .int (number 6 ⟨30, 31⟩ 5)),
    .mk 11 ⟨33, 39⟩ (.ret (some (.mk 10 ⟨40, 41⟩ (.load (first 9 ⟨42, 43⟩ 1 "a")))))])

def doubleBody : Instr :=
  .mk 15 ⟨11, 12⟩ (.block [declaration,
    .mk 5 ⟨23, 26⟩ (.declList [.mk 4 ⟨27, 28⟩
      (.declare 2 "b" (.array .int) [] (some (.mk 3 ⟨33, 34⟩ (.load ⟨1, "a", [], .array .int⟩))))]),
    .mk 10 ⟨41, 42⟩ (.store (first 7 ⟨38, 39⟩ 1 "a") none .int (number 9 ⟨43, 44⟩ 5)),
    .mk 14 ⟨46, 52⟩ (.ret (some (.mk 13 ⟨53, 54⟩ (.load (first 12 ⟨55, 56⟩ 2 "b")))))])

def program (body : Instr) (nodeCount : Nat) : Program :=
  ⟨"test", [⟨0, "main", [], .int, body, false, ⟨4, 8⟩⟩], [], nodeCount, environment⟩

def begun (body : Instr) : Execution Variable := .begin "test" 0 ⟨0, "main", [], .int, body, false, ⟨4, 8⟩⟩ []

theorem single_compiled : ofSource "test" environment single = .ok (program singleBody 13) :=
  ofSource_eq 20 (by decide +kernel) rfl

theorem double_compiled : ofSource "test" environment double = .ok (program doubleBody 16) :=
  ofSource_eq 20 (by decide +kernel) rfl

theorem run_persisted_single : ∃ t R,
    (program singleBody 13).Persisted Execution.Unshared 2 (begun singleBody) .empty
      (.finished (Slot.ofInt 5)) t ∧
    ((program singleBody 13).run 2 (begun singleBody) .empty).tick.Alike R (.finished (Slot.ofInt 5)) ∧
    ((program singleBody 13).run 2 (begun singleBody) .empty).session.Alike R t := by
  obtain ⟨t, persisted⟩ : ∃ t, (program singleBody 13).Persisted Execution.Unshared 2 (begun singleBody)
      .empty (.finished (Slot.ofInt 5)) t :=
    persisted_of_reloaded (by decide +kernel) (by decide +kernel) rfl (by decide +kernel)
  have stored : Session.empty.heap.Closed := fun r v hv => by simp [Session.empty, Heap.empty, Heap.elements] at hv
  obtain ⟨R, outcome, session⟩ := run_persisted single_compiled
    (fun _ known => absurd known List.not_mem_nil) stored (fun _ given => absurd given List.not_mem_nil)
    (show (program singleBody 13).startFunction? 0 [] .empty = some (begun singleBody) from rfl) persisted
  exact ⟨t, R, persisted, outcome, session⟩

/-- Saved while two variables hold one array, an execution comes to another result. -/
theorem run_not_persisted_double :
    ofSource "test" environment double = .ok (program doubleBody 16) ∧
    (program doubleBody 16).startFunction? 0 [] .empty = some (begun doubleBody) ∧
    ((program doubleBody 16).run 2 (begun doubleBody) .empty).tick = .finished (Slot.ofInt 5) ∧
    ∃ t, (program doubleBody 16).Persisted (fun _ _ => True) 2 (begun doubleBody) .empty
      (.finished (Slot.ofInt 0)) t := by
  refine ⟨double_compiled, rfl, by decide +kernel, ?_⟩
  exact persisted_of_reloaded (by decide +kernel) trivial rfl (by decide +kernel)

end Doubled
end Program
end Tickwise
