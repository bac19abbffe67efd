import Tickwise.Native.Library
import Tickwise.Proofs.Compile.Comparison
import Tickwise.Proofs.Compile.Constants
import Tickwise.Proofs.Execution.Calls
import Tickwise.Proofs.Sight.Units
set_option autoImplicit false

/-!
# Constants in a run

Where a run comes to an instruction that the compiler reports a constant for, nothing of it is left behind, so it is
executed from its start and yields the constant. So a switch goes to the label that evaluates to its value.
-/
namespace Tickwise

open Exec Compile

variable {p : Program} {depth room : Nat} {root i : Instr} {m m' m₀ : Machine} {c : Variable}
  {frames : List (Frame Variable)}

/-- What an instruction finds of itself where it is executed: nothing, the frames that it was paused with, or as a
function body the frame that its call made. -/
inductive Found (p : Program) : Instr → List (Frame Variable) → Prop
  | nothing {i : Instr} : Found p i []
  | paused {call : Calling} {i : Instr} {frames : List (Frame Variable)} (h : Paused p call i frames) : Found p i frames
  | called {g : Function} {f : Frame Variable} (listed : g ∈ p.functions) : Found p g.body [f]

def Machine.Finds (p : Program) (i : Instr) (m : Machine) : Prop :=
  m.deeper = [] ∨ ∃ c follow, i.move p m.own = .run c follow ∧ Found p c m.deeper

theorem Instr.Folds.move (h : i.Folds c) (p : Program) (f : Frame Variable) :
    (∃ action, i.move p f = .act action) ∨ ∃ part follow a, i.move p f = .run part follow ∧ part.Folds a := by
  unfold Instr.move
  cases h with
  | literal form =>
    rw [form]
    exact .inl ⟨_, rfl⟩
  | convert form inner =>
    rw [form]
    exact .inr ⟨_, _, _, rfl, inner⟩
  | unary form inner =>
    rw [form]
    exact .inr ⟨_, _, _, rfl, inner⟩
  | @binary _ left right op ty _ _ _ form first second =>
    rw [form]
    refine .inr ?_
    change ∃ part follow a, Move.ofBinary i.span op ty left right f = .run part follow ∧ part.Folds a
    unfold Move.ofBinary
    split
    · exact ⟨_, _, _, rfl, first⟩
    · exact ⟨_, _, _, rfl, second⟩
  | @logical _ left right isAnd _ _ _ _ form first second =>
    rw [form]
    refine .inr ?_
    change ∃ part follow a, Move.ofLogical i.span isAnd left right f = .run part follow ∧ part.Folds a
    unfold Move.ofLogical
    split
    · exact ⟨_, _, _, rfl, first⟩
    · exact ⟨_, _, _, rfl, second⟩

theorem Instr.Folds.not_paused {call : Calling} (h : i.Folds c) : ¬ Paused p call i frames := by
  intro paused
  induction paused generalizing c with
  | @step _ f _ _ _ move => rcases h.move p f with ⟨_, acts⟩ | ⟨_, _, _, runs, _⟩ <;> simp_all
  | @native _ f _ _ _ move => rcases h.move p f with ⟨_, acts⟩ | ⟨_, _, _, runs, _⟩ <;> simp_all
  | @part _ _ _ f _ _ move _ _ ih =>
    rcases h.move p f with ⟨_, acts⟩ | ⟨_, _, _, runs, folds⟩
    · cases acts.symm.trans move
    · cases runs.symm.trans move
      exact ih folds

theorem Instr.Folds.found (h : i.Folds c) (hp : p.Sighted) (found : Found p i frames) : frames = [] := by
  cases found with
  | nothing => rfl
  | paused paused => exact (h.not_paused paused).elim
  | called listed =>
    obtain ⟨body, form⟩ := hp.braced _ listed
    cases h <;> simp_all

theorem Paused.finds {call : Calling} (h : Paused p call i (m.own :: m.deeper)) : m.Finds p i := by
  generalize hf : m.own :: m.deeper = frames at h
  cases h with
  | step => exact .inl (List.cons.inj hf).2
  | native => exact .inl (List.cons.inj hf).2
  | part move _ inner =>
    obtain ⟨own, rest⟩ := List.cons.inj hf
    exact .inr ⟨_, _, own ▸ move, rest ▸ .paused inner⟩

theorem Found.enter {inside : Machine} (found : Found p i m.deeper) (fits : Fits p i m.deeper)
    (entered : m.enter? i.id = some inside) : inside.Finds p i := by
  cases hd : m.deeper with
  | nil =>
    rw [m.enter?_of_nil hd] at entered
    cases entered
    exact .inl hd
  | cons f rest =>
    rw [fits.enter?_of_cons hd] at entered
    rw [hd] at found
    cases entered
    cases found with
    | paused paused => exact Paused.finds (m := { m with frames := f :: m.frames, deeper := rest }) paused
    | called => exact .inl rfl

theorem Turn.findsOn (h : Turn (Executes p room) p room i m (.ok none, m')) (hm : m.frames ≠ [])
    (fits : Fits p i (m.own :: m.deeper)) (finds : m.Finds p i) : m'.Finds p i := by
  have around : ∀ c m r, Executes p room c m r → m.Around r.2 := fun _ _ _ hr => hr.around
  rcases h.goes around (fun _ _ _ hr => hr.leaves) hm fits with
    ⟨opens, same, own⟩ | ⟨id, g, params, waits, found, new⟩ | ⟨none, _⟩
  · rcases finds with none | ⟨c, follow, runs, _⟩
    · exact .inl (same.trans none)
    · cases opens.symm.trans runs
  · obtain ⟨entered, args, ret, form⟩ := Form.call_of_waiting_callee waits
    have move := (i.move_call form p m'.own).trans (Move.ofCall_user entered found)
    exact .inr ⟨_, _, move, new ▸ .called (List.mem_of_getElem? found)⟩
  · exact .inl none

theorem Passes.finds (h : Passes p room i m m') (hm : m.frames ≠ []) (fits : Fits p i (m.own :: m.deeper))
    (finds : m.Finds p i) : Fits p i (m'.own :: m'.deeper) ∧ m'.Finds p i := by
  induction h with
  | here => exact ⟨fits, finds⟩
  | next first _ ih =>
    have turn := Turn.executes_iff.2 first
    have around : ∀ c m r, Executes p room c m r → m.Around r.2 := fun _ _ _ hr => hr.around
    exact ih ((turn.inside around).own_kind hm).1 (turn.fits around (fun _ _ _ hr => hr.leaves) hm fits)
      (turn.findsOn hm fits finds)

theorem Visits.found (h : Visits p depth root m₀ room i m) (fits : Fits p root m₀.deeper)
    (found : Found p root m₀.deeper) : Fits p i m.deeper ∧ Found p i m.deeper := by
  induction h with
  | root => exact ⟨fits, found⟩
  | part _ entered passes move ih =>
    obtain ⟨fits, found⟩ := ih
    obtain ⟨hi, inside, _⟩ := fits.enter entered
    obtain ⟨fits', finds⟩ := passes.finds hi inside (found.enter fits entered)
    refine ⟨fits'.inner (fits'.agrees move nofun), ?_⟩
    rcases finds with none | ⟨c, follow, runs, found⟩
    · rw [none]
      exact .nothing
    · cases move.symm.trans runs
      exact found

/-- Executed where nothing of it is left behind, an instruction yields its value or overflows the stack, and the machine
is as before. -/
theorem Instr.Yields.exec {n : Nat} (h : i.Yields n c) (rest : m.deeper = []) :
    exec p room i m = (.ok c, m) ∨ ∃ span, exec p room i m = (.error (.fault ⟨.stackOverflow, span⟩), m) := by
  by_cases enough : n ≤ room
  · exact .inl (executes_iff.1 ((h.done room enough).executes p rest))
  · obtain ⟨span, overflows⟩ := h.overflows room (by omega)
    exact .inr ⟨span, executes_iff.1 (overflows.executes p rest)⟩

/-!
## Where a switch goes
-/

/-- Where a switch with these labels goes with a value: to the one whose expression evaluates to it, else to `default`,
else behind its body. -/
inductive Chosen (labels : List (Nat × Option Operand)) (n : Int32) : Option Nat → Prop
  | value {start : Nat} {e : Operand} {depth : Nat} {v : Variable} (mem : (start, some e) ∈ labels)
      (yields : e.instr.Yields depth v) (known : v.toInt = .ok n) : Chosen labels n (some start)
  | default {start : Nat} (mem : (start, none) ∈ labels)
      (others : ∀ start e depth v, (start, some e) ∈ labels → e.instr.Yields depth v → v.toInt ≠ .ok n) :
      Chosen labels n (some start)
  | none (without : ∀ start, (start, none) ∉ labels)
      (others : ∀ start e depth v, (start, some e) ∈ labels → e.instr.Yields depth v → v.toInt ≠ .ok n) :
      Chosen labels n none

theorem Instr.Yields.unique {n n' : Nat} {v w : Variable} (h : i.Yields n v) (h' : i.Yields n' w) : v = w := by
  let p : Program := ⟨"", [], [], 0, .empty⟩
  let m : Machine := ⟨[], [], .empty, ⟨[], []⟩, 0, 0, false⟩
  have first := h.done (max n n') (Nat.le_max_left ..) p m nofun
  have second := h'.done (max n n') (Nat.le_max_right ..) p m nofun
  cases first.symm.trans second
  rfl

namespace Compiler

variable {cases : List Case} {labels : List (Nat × Option Operand)}

theorem Labelled.value_iff {start : Nat} {e : Operand} {k : Case} {n : Int32} (labelled : Labelled k (start, some e))
    (sound : e.Sound) : (∃ depth v, e.instr.Yields depth v ∧ v.toInt = .ok n) ↔ k.value = some n := by
  cases labelled with
  | value constant known =>
    obtain ⟨depth, yields⟩ := (sound _ constant).yields
    constructor
    · rintro ⟨_, w, yields', known'⟩
      obtain rfl := yields.unique yields'
      cases known.symm.trans known'
      rfl
    · intro same
      cases same
      exact ⟨depth, _, yields, known⟩

section

variable (labelled : List.Forall₂ Labelled cases labels) (sound : ∀ start e, (start, some e) ∈ labels → e.Sound)
include labelled sound

theorem case_of_label {start : Nat} {e : Operand} {depth : Nat} {v : Variable} {n : Int32}
    (mem : (start, some e) ∈ labels) (yields : e.instr.Yields depth v) (known : v.toInt = .ok n) :
    ∃ k ∈ cases, k.start = start ∧ k.value = some n := by
  obtain ⟨k, hk, label⟩ := forall₂_exists_left labelled mem
  have value := (label.value_iff (sound start e mem)).1 ⟨depth, v, yields, known⟩
  refine ⟨k, hk, ?_, value⟩
  cases label
  rfl

theorem label_of_case {k : Case} {n : Int32} (hk : k ∈ cases) (value : k.value = some n) :
    ∃ e depth v, (k.start, some e) ∈ labels ∧ e.instr.Yields depth v ∧ v.toInt = .ok n := by
  obtain ⟨l, hl, label⟩ := forall₂_exists_left labelled.flip hk
  cases label with
  | @value start e _ _ constant known =>
    have label : Labelled ⟨_, start⟩ (start, some e) := .value constant known
    obtain ⟨depth, v, yields, known⟩ := (label.value_iff (sound start e hl)).2 value
    exact ⟨e, depth, v, hl, yields, known⟩
  | default => cases value

end

theorem chosen_chooseCase (labelled : List.Forall₂ Labelled cases labels)
    (sound : ∀ start e, (start, some e) ∈ labels → e.Sound) (n : Int32) :
    Chosen labels n ((chooseCase cases n).map Case.start) := by
  unfold chooseCase
  cases found : cases.find? (·.value = some n) with
  | some k =>
    have value := List.find?_some found
    obtain ⟨e, depth, v, mem, yields, known⟩ :=
      label_of_case labelled sound (List.mem_of_find?_eq_some found) (of_decide_eq_true value)
    exact .value mem yields known
  | none =>
    have others start e depth v (mem : (start, some e) ∈ labels) (yields : e.instr.Yields depth v) : v.toInt ≠ .ok n := by
      intro known
      obtain ⟨k, hk, _, value⟩ := case_of_label labelled sound mem yields known
      exact absurd value (by simpa using List.find?_eq_none.1 found k hk)
    rw [Option.none_or]
    cases default : cases.find? (·.value = none) with
    | some k =>
      have value : k.value = none := by simpa using List.find?_some default
      obtain ⟨l, hl, label⟩ := forall₂_exists_left labelled.flip (List.mem_of_find?_eq_some default)
      cases label with
      | value => cases value
      | default => exact .default hl others
    | none =>
      refine .none (fun start mem => ?_) others
      obtain ⟨k, hk, label⟩ := forall₂_exists_left labelled mem
      have value := List.find?_eq_none.1 default k hk
      cases label
      simp at value

theorem Chosen.unique {n : Int32} {a b : Option Nat} (h : Chosen labels n a) (h' : Chosen labels n b)
    (labelled : List.Forall₂ Labelled cases labels) (different : (cases.map Case.value).Nodup)
    (sound : ∀ start e, (start, some e) ∈ labels → e.Sound) : a = b := by
  have same {k k' : Case} (hk : k ∈ cases) (hk' : k' ∈ cases) (value : k.value = k'.value) : k = k' :=
    List.inj_on_of_nodup_map different hk hk' value
  cases h with
  | value mem yields known =>
    cases h' with
    | value mem' yields' known' =>
      obtain ⟨k, hk, start, value⟩ := case_of_label labelled sound mem yields known
      obtain ⟨k', hk', start', value'⟩ := case_of_label labelled sound mem' yields' known'
      rw [← start, ← start', same hk hk' (value.trans value'.symm)]
    | default _ others => exact absurd known (others _ _ _ _ mem yields)
    | none _ others => exact absurd known (others _ _ _ _ mem yields)
  | default mem others =>
    cases h' with
    | value mem' yields' known' => exact absurd known' (others _ _ _ _ mem' yields')
    | default mem' =>
      obtain ⟨k, hk, label⟩ := forall₂_exists_left labelled mem
      obtain ⟨k', hk', label'⟩ := forall₂_exists_left labelled mem'
      cases label
      cases label'
      cases same hk hk' rfl
      rfl
    | none without => exact absurd mem (without _)
  | none without others =>
    cases h' with
    | value mem' yields' known' => exact absurd known' (others _ _ _ _ mem' yields')
    | default mem' => exact absurd mem' (without _)
    | none => rfl

end Compiler

theorem Instr.turn_switch {label : Option String} {value : Instr} {cases : List Case} {body : List Instr} {v : Variable}
    {n : Int32} (form : i.form = .switch label value cases body) (first : m.own.state = 0) (opened : m.own.scope = true)
    (ended : exec p room value m = (.ok v, m')) (known : v.toInt = .ok n) :
    turn (exec p room) p room i m = match (chooseCase cases n).map Case.start with
      | some start => (.ok none, m'.modifyFrame ({ · with state := 1, index := start }))
      | none => (.ok (some Slot.ofVoid), m') := by
  have move : i.move p m.own = .ofSwitch i.span label value cases body m.own := by
    unfold Instr.move
    rw [form, opened]
    rfl
  rw [turn_run (move.trans (if_pos first)), ended]
  dsimp only
  rw [known]
  have checked : check i.span (.ok n) m' = (.ok n, m') := rfl
  rw [bind_apply, checked]
  dsimp only
  cases chooseCase cases n <;> rfl

namespace Program

variable {past : List Event} {x : Execution Variable} {s : Session} {budget : Nat}

theorem Hosts.found (hosts : p.Hosts past x) (visits : (p.withSteps budget).Visits x s room i m) :
    Found (p.withSteps budget) i m.deeper := by
  obtain ⟨f, y, prepared, visits⟩ := visits
  obtain ⟨call, _, abides, _⟩ := hosts.abides
  rcases abides with ⟨g, carries⟩ | ⟨done, _⟩
  · cases (carries.prepare s budget).symm.trans prepared
    refine (visits.found ((fits_inEnvironment ..).2 carries.fits) ?_).2
    change Found (p.withSteps budget) f.body x.frames
    rcases carries.waits with ⟨_, _, g, frames, _⟩ | ⟨_, paused⟩
    · rw [frames]
      exact .called (List.mem_of_getElem? carries.entry)
    · exact .paused (paused.of_moves fun _ _ => rfl)
  · have running := (prepare_right prepared).2.1
    rw [done] at running
    cases running

/-- Constants agree with execution. For every expression that the compiler reports a constant for, the instruction is
executed in one way, whatever the program and the machine are: it yields the constant, or overflows the stack where there
is not enough room, and leaves everything as it was. In a run none of it is ever left behind, so that is what happens
wherever it is executed. And a switch goes to the label whose expression evaluates to its value. -/
theorem constants_agree {id source : String} {env : Environment} (compiled : Program.ofSource id env source = .ok p)
    (hosts : p.Hosts past x) :
    (∀ i c, Compiler.ReportsConstant i c → ∃ depth, i.Yields depth c) ∧
    (∀ budget s room i m c, (p.withSteps budget).Visits x s room i m → Compiler.ReportsConstant i c →
      exec (p.withSteps budget) room i m = (.ok c, m) ∨
        ∃ span, exec (p.withSteps budget) room i m = (.error (.fault ⟨.stackOverflow, span⟩), m)) ∧
    ∀ level label span ctx s i s',
      Compiler.switchStatement (Level.ofRoom level) label span ctx s = (some i, s') →
      ∃ value cases body labels, i.form = .switch label value cases body ∧
        Compiler.Switches (Level.ofRoom level) label ctx s value labels ∧
        ∀ q room m v m' n, m.own.state = 0 → m.own.scope = true → exec q room value m = (.ok v, m') → v.toInt = .ok n →
          ∃ start?, (∀ other, Chosen labels n other ↔ other = start?) ∧
            turn (exec q room) q room i m = match start? with
              | some start => (.ok none, m'.modifyFrame ({ · with state := 1, index := start }))
              | none => (.ok (some Slot.ofVoid), m') := by
  refine ⟨fun i c reports => reports.folds.yields, fun budget s room i m c visits reports => ?_, ?_⟩
  · obtain ⟨depth, yields⟩ := reports.folds.yields
    have sighted : (p.withSteps budget).Sighted := by
      obtain sighted := sighted_ofTokens compiled
      exact ⟨sighted.braced, sighted.sees, sighted.arity⟩
    exact yields.exec (reports.folds.found sighted (hosts.found visits))
  · intro level label span ctx s i s' made
    obtain ⟨value, cases, body, labels, form, switches, labelled, different⟩ := Compiler.switches_of_switchStatement made
    refine ⟨value, cases, body, labels, form, switches, fun q room m v m' n first opened ended known => ?_⟩
    obtain ⟨s₁, s₂, _, read⟩ := switches
    have sound := read.sound (Emits.sound_ofRoom level)
    have chosen := Compiler.chosen_chooseCase labelled sound n
    refine ⟨_, fun other => ⟨fun h => Compiler.Chosen.unique h chosen labelled different sound,
      fun same => same ▸ chosen⟩, ?_⟩
    exact Instr.turn_switch form first opened ended known

/-!
A switch on `3` whose only label is `1 + 2`, with a product behind it.
-/
namespace Folding

def source : String := "int main() { switch (3) { case 1 + 2: return 2 * 4; } return 0; }"

def three : Instr := .mk 0 ⟨21, 22⟩ (.literal (Slot.ofInt 3))

def product : Instr :=
  .mk 6 ⟨47, 48⟩ (.binary .mul .int (.mk 4 ⟨45, 46⟩ (.literal (Slot.ofInt 2))) (.mk 5 ⟨49, 50⟩ (.literal (Slot.ofInt 4))))

def choice : Instr :=
  .mk 8 ⟨13, 19⟩ (.switch none three [⟨some 3, 0⟩] [.mk 7 ⟨38, 44⟩ (.ret (some product))])

def main : Function :=
  ⟨0, "main", [], .int, .mk 11 ⟨11, 12⟩ (.block [choice,
    .mk 10 ⟨54, 60⟩ (.ret (some (.mk 9 ⟨61, 62⟩ (.literal (Slot.ofInt 0)))))]), false, ⟨4, 8⟩⟩

def program : Program := ⟨"folding", [main], [], 12, .empty⟩

def begun : Execution Variable := .begin "folding" 0 main []

def before (tokens : Nat) (nextNode : NodeId) : State :=
  ⟨(Lexer.tokens source).drop tokens, ⟨[⟨true, [], none, none⟩], none, [], .empty, 1⟩, nextNode⟩

theorem compiled : ofSource "folding" .empty source = .ok program :=
  ofSource_eq 20 (by decide +kernel) rfl

theorem reports : Compiler.ReportsConstant product (Slot.ofInt 8) := by
  let answer? : Option Operand := ((Level.ofRoom 5).binary 0 (unitContext .empty (Lexer.tokens source)) (before 16 4)).1
  have instr : answer?.map Operand.instr = some product := Instr.eq_some_of_same 20 (by decide +kernel)
  have typed : answer?.map (fun e => (e.ty, e.constant)) = some (.int, some (Slot.ofInt 8)) := by decide +kernel
  obtain ⟨⟨i, ty, constant⟩, found, rfl⟩ := Option.map_eq_some_iff.1 instr
  rw [found] at typed
  cases typed
  exact ⟨5, _, unitContext .empty (Lexer.tokens source), before 16 4, .int, .binary 0, found⟩

theorem made : ∃ s', Compiler.switchStatement (Level.ofRoom 7) none ⟨13, 19⟩
    { unitContext .empty (Lexer.tokens source) with ret := .int } (before 6 0) = (some choice, s') := by
  have answers : (Compiler.switchStatement (Level.ofRoom 7) none ⟨13, 19⟩
      { unitContext .empty (Lexer.tokens source) with ret := .int } (before 6 0)).1 = some choice :=
    Instr.eq_some_of_same 20 (by decide +kernel)
  generalize Compiler.switchStatement _ _ _ _ _ = r at answers ⊢
  exact ⟨r.2, Prod.ext answers rfl⟩

def atStart : Machine := ⟨[{ Frame.start 8 with scope := true }], [], .empty, ⟨[], []⟩, 0, 0, false⟩

/-- What a tick executes in the switch, and the machine then. -/
def last? : Option (Nat × Instr × Machine) :=
  visit? program [1, 3, 0] 200 main.body (program.machine begun .empty)

theorem constants_agree_product :
    ofSource "folding" .empty source = .ok program ∧ program.Hosts [] begun ∧
    (∃ depth, product.Yields depth (Slot.ofInt 8)) ∧
    (∃ room m, (program.withSteps 100).Visits begun .empty room product m ∧
      exec (program.withSteps 100) room product m = (.ok (Slot.ofInt 8), m)) ∧
    ∃ ctx s labels, Compiler.Switches (Level.ofRoom 7) none ctx s three labels ∧
      ∀ other, Chosen labels 3 other ↔ other = some 0 := by
  have hosts : program.Hosts [] begun :=
    .start (.byPosition (show program.startFunction? 0 [] .empty = some begun from rfl))
  obtain ⟨yields, executes, chooses⟩ := constants_agree compiled hosts
  refine ⟨compiled, hosts, yields _ _ reports, ?_, ?_⟩
  · have code : last?.map (·.2.1) = some product := Instr.eq_some_of_same 20 (by decide +kernel)
    have value : last?.map (fun e => (exec program e.1 e.2.1 e.2.2).1) = some (.ok (Slot.ofInt 8)) := by decide +kernel
    obtain ⟨⟨room, i, m⟩, found, rfl⟩ := Option.map_eq_some_iff.1 code
    have prepared : program.prepare begun .empty = .inr (main, begun) := rfl
    have visits : (program.withSteps 100).Visits begun .empty room product m :=
      ⟨main, begun, prepared, .of_visit? .root found⟩
    rw [found] at value
    have ended : (exec program room product m).1 = .ok (Slot.ofInt 8) := Option.some.inj value
    refine ⟨room, m, visits, (executes 100 .empty room product m _ visits reports).resolve_right ?_⟩
    rintro ⟨span, overflows⟩
    cases (congrArg Prod.fst overflows).symm.trans ended
  · obtain ⟨s', made⟩ := made
    obtain ⟨_, cases, body, labels, form, switches, goes⟩ := chooses _ _ _ _ _ _ _ made
    cases form
    obtain ⟨start?, chosen, goes⟩ := goes program 1 atStart (Slot.ofInt 3) atStart 3 rfl rfl rfl rfl
    have moved : (turn (exec program 1) program 1 choice atStart).1 = .ok none ∧
        (turn (exec program 1) program 1 choice atStart).2.own.index = 0 := ⟨rfl, rfl⟩
    rw [goes] at moved
    refine ⟨_, _, labels, switches, ?_⟩
    cases start? with
    | none => cases moved.1
    | some start =>
      obtain rfl : start = 0 := Int.ofNat.inj moved.2
      exact chosen

end Folding

end Program

end Tickwise
