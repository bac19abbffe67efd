import Tickwise.Proofs.Machine.Frames
set_option autoImplicit false

/-!
# Executions without a bound on the turns

What an instruction leads to when its turns are repeated for as long as there is more to do.
-/
namespace Tickwise

abbrev Result (α : Type) := Except Interrupt α × Machine

open Exec

variable {run : Instr → Machine → Result Variable → Prop} {p : Program} {room : Nat} {i : Instr}
  {m : Machine}

/-- One turn of an instruction. `run` says what the instructions one level deeper lead to. -/
inductive Turn (run : Instr → Machine → Result Variable → Prop) (p : Program) (room : Nat)
    (i : Instr) (m : Machine) : Result (Option Variable) → Prop
  | child {c : Instr} {follow : Except Interrupt Variable → Exec (Option Variable)}
      {o : Except Interrupt Variable} {m' : Machine} (move : i.move p m.own = .run c follow)
      (inner : run c m (o, m')) : Turn run p room i m (follow o m')
  | pass {span : Span} {state : Nat} {index : Int} (move : i.move p m.own = .pass span state index) :
      Turn run p room i m (goOn (do spend span; setPosition state index) m)
  | enter {f : Function} (move : i.move p m.own = .enter f) :
      Turn run p room i m (goOn (enterCallee i.span f room) m)
  | invoke {id : NativeId} {f : NativeFn} {ret : Ty} (move : i.move p m.own = .invoke id f ret) :
      Turn run p room i m (finish (callNative i.span id f ret) m)
  | act {action : Exec (Option Variable)} (move : i.move p m.own = .act action) :
      Turn run p room i m (action m)

/-- The turns of an instruction until it is finished or left. -/
inductive Turns (run : Instr → Machine → Result Variable → Prop) (p : Program) (room : Nat)
    (i : Instr) : Machine → Result Variable → Prop
  | done {m m' : Machine} {v : Variable} (last : Turn run p room i m (.ok (some v), m')) :
      Turns run p room i m (.ok v, m')
  | left {m m' : Machine} {e : Interrupt} (last : Turn run p room i m (.error e, m')) :
      Turns run p room i m (.error e, m')
  | next {m m' : Machine} {r : Result Variable} (first : Turn run p room i m (.ok none, m'))
      (rest : Turns run p room i m' r) : Turns run p room i m r

/-- What executing an instruction leads to, with no bound on the turns. `room` is how deep frames may
still be nested. -/
def Executes (p : Program) : (room : Nat) → Instr → Machine → Result Variable → Prop
  | 0, i, m, r => r = settle (if i.isLeaf then leaf i else faultAt i.span .stackOverflow) m
  | room + 1, i, m, r =>
    if i.isLeaf then r = settle (leaf i) m
    else match m.enter? i.id with
      | some inside => ∃ left, Turns (Executes p room) p room i inside left ∧ r = leaveFrame left
      | none => r = settle (faultAt i.span .notRestored) m

theorem turn_apply (run : Instr → Exec Variable) (p : Program) (room : Nat) (i : Instr) (m : Machine) :
    turn run p room i m = (match i.move p m.own with
      | .run child follow => do follow (← outcomeOf (run child))
      | .pass span state index => goOn do
          spend span
          setPosition state index
      | .enter f => goOn (enterCallee i.span f room)
      | .invoke id f ret => finish (callNative i.span id f ret)
      | .act action => action : Exec (Option Variable)) m := rfl

theorem Exec.turn_run {run : Instr → Exec Variable} {c : Instr}
    {follow : Except Interrupt Variable → Exec (Option Variable)} (move : i.move p m.own = .run c follow) :
    turn run p room i m = follow (run c m).1 (run c m).2 := by
  rw [turn_apply, move]
  rfl

theorem turn_eq_iff {run : Instr → Exec Variable} {r : Result (Option Variable)} :
    turn run p room i m = r ↔ Turn (fun c m r => run c m = r) p room i m r := by
  have step := turn_apply run p room i m
  constructor
  · rintro rfl
    cases hm : i.move p m.own with
    | run c follow => rw [step, hm]; exact .child hm rfl
    | pass span state index => rw [step, hm]; exact .pass hm
    | enter f => rw [step, hm]; exact .enter hm
    | invoke id f ret => rw [step, hm]; exact .invoke hm
    | act action => rw [step, hm]; exact .act hm
  · rintro (⟨hm, hr⟩ | hm | hm | hm | hm)
    case child c follow o m' =>
      rw [step, hm]
      exact congrArg (fun r : Result Variable => follow r.1 r.2) hr
    all_goals rw [step, hm]

namespace Turn

theorem unique {r r' : Result (Option Variable)} (hr : ∀ c m r r', run c m r → run c m r' → r = r')
    (h : Turn run p room i m r) (h' : Turn run p room i m r') : r = r' := by
  cases h with
  | child move inner =>
    cases h' with
    | child move' inner' =>
      cases move.symm.trans move'
      cases hr _ _ _ _ inner inner'
      rfl
    | _ => simp_all
  | _ => cases h' <;> simp_all

theorem mono {run' : Instr → Machine → Result Variable → Prop} {r : Result (Option Variable)}
    (hr : ∀ c m r, run c m r → run' c m r) (h : Turn run p room i m r) : Turn run' p room i m r := by
  cases h with
  | child move inner => exact .child move (hr _ _ _ inner)
  | pass move => exact .pass move
  | enter move => exact .enter move
  | invoke move => exact .invoke move
  | act move => exact .act move

end Turn

namespace Turns

theorem mono {run' : Instr → Machine → Result Variable → Prop} {r : Result Variable}
    (hr : ∀ c m r, run c m r → run' c m r) (h : Turns run p room i m r) : Turns run' p room i m r := by
  induction h with
  | done last => exact .done (last.mono hr)
  | left last => exact .left (last.mono hr)
  | next first _ ih => exact .next (first.mono hr) ih

theorem unique {r r' : Result Variable} (hr : ∀ c m r r', run c m r → run c m r' → r = r')
    (h : Turns run p room i m r) (h' : Turns run p room i m r') : r = r' := by
  induction h with
  | done last =>
    cases h' with
    | done last' => cases last.unique hr last'; rfl
    | left last' => cases last.unique hr last'
    | next first' _ => cases last.unique hr first'
  | left last =>
    cases h' with
    | done last' => cases last.unique hr last'
    | left last' => cases last.unique hr last'; rfl
    | next first' _ => cases last.unique hr first'
  | next first _ ih =>
    cases h' with
    | done last' => cases first.unique hr last'
    | left last' => cases first.unique hr last'
    | next first' rest' => cases first.unique hr first'; exact ih rest'

theorem congr {m' : Machine} {r : Result Variable} (h : Turns run p room i m r)
    (same : ∀ r, Turn run p room i m r → Turn run p room i m' r) : Turns run p room i m' r := by
  cases h with
  | done last => exact .done (same _ last)
  | left last => exact .left (same _ last)
  | next first rest => exact .next (same _ first) rest

end Turns

namespace Executes

variable {r : Result Variable}

theorem of_leaf (hl : i.isLeaf = true) : Executes p room i m r ↔ r = settle (leaf i) m := by
  cases room <;> simp [Executes, hl]

theorem of_overflow (hl : i.isLeaf = false) :
    Executes p 0 i m r ↔ r = settle (faultAt i.span .stackOverflow) m := by
  simp [Executes, hl]

theorem of_enter (hl : i.isLeaf = false) {inside : Machine} (hm : m.enter? i.id = some inside) :
    Executes p (room + 1) i m r ↔
      ∃ left, Turns (Executes p room) p room i inside left ∧ r = leaveFrame left := by
  simp [Executes, hl, hm]

theorem of_not_restored (hl : i.isLeaf = false) (hm : m.enter? i.id = none) :
    Executes p (room + 1) i m r ↔ r = settle (faultAt i.span .notRestored) m := by
  simp [Executes, hl, hm]

/-- What holds of leaves and faults, and of the turns of an instruction in its frame if it holds one
level deeper, holds of every execution. -/
theorem induction {Q : Nat → Instr → Machine → Result Variable → Prop}
    (leaf : ∀ {room i} m, i.isLeaf = true → Q room i m (settle (leaf i) m))
    (fault : ∀ {room i} m fault, Q room i m (settle (faultAt i.span fault) m))
    (frame : ∀ {room i m inside left}, i.isLeaf = false → m.enter? i.id = some inside →
      (∀ c m r, Executes p room c m r → Q room c m r) →
      Turns (Executes p room) p room i inside left → Q (room + 1) i m (leaveFrame left))
    (h : Executes p room i m r) : Q room i m r := by
  induction room generalizing i m r with
  | zero =>
    cases hl : i.isLeaf with
    | true => exact (of_leaf hl).1 h ▸ leaf m hl
    | false => exact (of_overflow hl).1 h ▸ fault m _
  | succ room ih =>
    cases hl : i.isLeaf with
    | true => exact (of_leaf hl).1 h ▸ leaf m hl
    | false =>
      cases hm : m.enter? i.id with
      | none => exact (of_not_restored hl hm).1 h ▸ fault m _
      | some inside =>
        obtain ⟨left, turns, rfl⟩ := (of_enter hl hm).1 h
        exact frame hl hm (fun _ _ _ => ih) turns

theorem unique {r' : Result Variable} (h : Executes p room i m r) (h' : Executes p room i m r') :
    r = r' := by
  induction room generalizing i m r r' with
  | zero => exact h.trans h'.symm
  | succ room ih =>
    cases hl : i.isLeaf with
    | true => exact ((of_leaf hl).1 h).trans ((of_leaf hl).1 h').symm
    | false =>
      cases hm : m.enter? i.id with
      | none => exact ((of_not_restored hl hm).1 h).trans ((of_not_restored hl hm).1 h').symm
      | some inside =>
        obtain ⟨left, turns, rfl⟩ := (of_enter hl hm).1 h
        obtain ⟨left', turns', rfl⟩ := (of_enter hl hm).1 h'
        have deeper : ∀ c m r r', Executes p room c m r → Executes p room c m r' → r = r' :=
          fun _ _ _ _ => ih
        exact congrArg leaveFrame (turns.unique deeper turns')

end Executes

namespace Exec

theorem read_snd (span : Span) (storage : Storage) (m : Machine) : (read span storage m).2 = m := by
  rw [read_apply]
  cases m.read? storage with
  | some v => rfl
  | none => cases storage <;> rfl

theorem readInit_snd (span : Span) (storage : Storage) (m : Machine) :
    (readInit span storage m).2 = m := by
  have h := read_snd span storage m
  unfold readInit
  rw [bind_apply]
  generalize read span storage m = r at h ⊢
  obtain ⟨_ | v, m'⟩ := r
  · exact h
  · dsimp only at h ⊢
    split <;> exact h

theorem leaf_snd (i : Instr) (m : Machine) : ∃ h, (leaf i m).2 = { m with heap := h } := by
  unfold leaf
  cases i.form with
  | new cls => exact ⟨(m.heap.newObject cls).2, rfl⟩
  | load place => exact ⟨m.heap, readInit_snd ..⟩
  | ret value => cases value <;> exact ⟨m.heap, rfl⟩
  | _ => exact ⟨m.heap, rfl⟩

theorem inside_record (m : Machine) (id : NativeId) (phase : CallPhase) (r : NativeReply) :
    m.Inside (m.record id phase r) := by
  have kind (f : Frame Variable) : { f with index := r.state.toInt }.kind = f.kind := rfl
  have h := Machine.Inside.modifyFrame m kind
  exact ⟨h.own, h.outer, h.stop, h.steps, h.taken⟩

theorem callNative_apply (span : Span) (id : NativeId) (f : NativeFn) (ret : Ty) (m : Machine) :
    callNative span id f ret m =
      let phase := callPhase m.own.state m.stop
      let r := m.reply f phase
      (if phase = .cancel then faultAt span .stopped else answered span ret r.outcome)
        (m.record id phase r) := rfl

/-- A native that asked to be invoked again was invoked, and its frame waits in state 2. -/
theorem callNative_suspended {span : Span} {id : NativeId} {f : NativeFn} {ret : Ty} {m m' : Machine}
    (h : callNative span id f ret m = (.error .suspended, m')) :
    ∃ phase r, m' = (m.record id phase r).modifyFrame ({ · with
      state := 2, index := (m.record id phase r).own.index }) := by
  rw [callNative_apply] at h
  dsimp only at h
  split at h
  · cases h
  · generalize m.reply f _ = r at h
    cases hr : r.outcome with
    | done v =>
      rw [hr] at h
      exact absurd (congrArg Prod.fst h) ((Plain.convert trivial v ret).ne_suspended _)
    | suspend =>
      rw [hr] at h
      cases h
      exact ⟨_, r, rfl⟩
    | fault _ | crashed _ =>
      rw [hr] at h
      cases h

theorem enterCallee_ok {span : Span} {f : Function} {room : Nat} {m m' : Machine}
    (h : enterCallee span f room m = (.ok (), m')) :
    ∃ params n, bindParams m.heap f.params m.own.operands = .ok params ∧ 0 < room ∧
      (m.modifyFrame ({ · with operands := [] })).placeCallee? f.body.id params = some n ∧
      m' = n.modifyFrame ({ · with state := 2, index := 0 }) := by
  obtain ⟨values, m₁, h₁, h⟩ := ok_of_bind h
  cases h₁
  obtain ⟨_, m₂, h₂, h⟩ := ok_of_bind h
  cases h₂
  obtain ⟨params, m₃, h₃, h⟩ := ok_of_bind h
  obtain ⟨bound, same⟩ := ok_of_checkCrash h₃
  subst same
  rw [Machine.heap_modifyFrame] at bound
  split at h
  · cases h
  · rename_i hroom
    obtain ⟨_, n, h₄, h⟩ := ok_of_bind h
    cases h
    refine ⟨params, n, bound, Nat.pos_of_ne_zero hroom, ?_, rfl⟩
    unfold placeCallee at h₄
    split at h₄
    case h_1 n' placed =>
      cases h₄
      exact placed
    case h_2 => cases h₄

theorem spend_apply (span : Span) (m : Machine) :
    spend span m =
      if m.stop then (.error (.fault ⟨.stopped, span⟩), m)
      else if m.budget = 0 then (.error .suspended, m)
      else (.ok (), { m with budget := m.budget - 1, taken := m.taken + 1 }) := by
  change (if m.stop then faultAt span .stopped
    else if m.budget = 0 then throw .suspended
    else set { m with budget := m.budget - 1, taken := m.taken + 1 } : Exec Unit) m = _
  split
  · rfl
  · split <;> rfl

theorem pass_apply (span : Span) (state : Nat) (index : Int) (m : Machine) :
    goOn (do spend span; setPosition state index) m =
      if m.stop then (.error (.fault ⟨.stopped, span⟩), m)
      else if m.budget = 0 then (.error .suspended, m)
      else (.ok none, { m with budget := m.budget - 1, taken := m.taken + 1 }.modifyFrame
        ({ · with state := state, index := index })) := by
  unfold goOn
  rw [bind_apply, bind_apply, spend_apply]
  by_cases hs : m.stop = true
  · rw [if_pos hs, if_pos hs]
  · rw [if_neg hs, if_neg hs]
    by_cases hb : m.budget = 0
    · rw [if_pos hb, if_pos hb]
    · rw [if_neg hb, if_neg hb]
      rfl

end Exec

/-- A relation to what becomes of a machine, that an instruction keeps to in whatever it does itself. It may enter
functions while there is room. -/
structure Machine.Lasts (room : Nat) (K : Machine → Machine → Prop) : Prop where
  refl (m : Machine) : K m m
  trans {m n o : Machine} : K m n → K n o → K m o
  plain {α : Type} {c : Exec α} : Plain (fun _ => True) c → ∀ m, K m (c m).2
  place {m n : Machine} {node : NodeId} {params : List Variable} (free : 0 < room)
    (placed : m.placeCallee? node params = some n) : K m n
  spend {m : Machine} (left : m.budget ≠ 0) : K m { m with budget := m.budget - 1, taken := m.taken + 1 }
  record (m : Machine) (id : NativeId) (phase : CallPhase) (r : NativeReply) : K m (m.record id phase r)

namespace Machine.Lasts

variable {K : Machine → Machine → Prop} {α β : Type}

theorem bind (lasts : Lasts room K) {c : Exec α} {f : α → Exec β} (hc : ∀ m, K m (c m).2)
    (hf : ∀ a m, K m (f a m).2) (m : Machine) : K m ((c >>= f) m).2 :=
  keep_seq (K := K) lasts.trans hc (fun a _ _ _ => hf a) m

theorem spends (lasts : Lasts room K) (span : Span) (m : Machine) : K m (Exec.spend span m).2 := by
  rw [spend_apply]
  split
  · exact lasts.refl m
  · split
    case isTrue => exact lasts.refl m
    case isFalse left => exact lasts.spend left

theorem placeCallee (lasts : Lasts room K) (free : 0 < room) (span : Span) (node : NodeId) (params : List Variable)
    (m : Machine) : K m (Exec.placeCallee span node params m).2 := by
  unfold Exec.placeCallee
  split
  case h_1 placed => exact lasts.place free placed
  case h_2 => exact lasts.refl m

theorem enterCallee (lasts : Lasts room K) (span : Span) (f : Function) (m : Machine) :
    K m (Exec.enterCallee span f room m).2 := by
  refine lasts.bind (lasts.plain .operands) (fun _ => ?_) m
  refine lasts.bind (lasts.plain (.setOperands [])) fun _ => ?_
  refine lasts.bind (lasts.plain (.checkCrash trivial ..)) fun params => ?_
  split
  case isTrue => exact lasts.plain (.faultAt trivial _)
  case isFalse some =>
    have free : 0 < room := Nat.pos_of_ne_zero some
    exact lasts.bind (lasts.placeCallee free _ _ _) fun _ => lasts.plain (.setPosition 2 0)

theorem answered (lasts : Lasts room K) (span : Span) (ret : Ty) (outcome : NativeOutcome) (m : Machine) :
    K m (Exec.answered span ret outcome m).2 := by
  cases outcome with
  | done v => exact lasts.plain (.convert trivial v ret) m
  | suspend => exact lasts.plain (.setPosition ..) m
  | fault _ | crashed _ => exact lasts.refl m

theorem callNative (lasts : Lasts room K) (span : Span) (id : NativeId) (f : NativeFn) (ret : Ty) (m : Machine) :
    K m (Exec.callNative span id f ret m).2 := by
  rw [callNative_apply]
  dsimp only
  have recorded := lasts.record m id (callPhase m.own.state m.stop) (m.reply f (callPhase m.own.state m.stop))
  split
  · exact recorded
  · exact lasts.trans recorded (lasts.answered ..)

theorem turn (lasts : Lasts room K) {r : Result (Option Variable)} (hr : ∀ c m r, run c m r → K m r.2)
    (h : Turn run p room i m r) : K m r.2 := by
  have plain := i.move_isPlain p m.own
  cases h with
  | @child c follow o m' move inner =>
    rw [move] at plain
    refine lasts.trans (hr _ _ _ inner) ?_
    by_cases ho : o = .error .suspended
    · rw [ho, plain.1]
      exact lasts.refl m'
    · exact lasts.plain (plain.2 o ho fun _ _ _ _ => trivial) m'
  | pass move =>
    exact lasts.bind (lasts.bind (lasts.spends _) fun _ => lasts.plain (.setPosition ..)) (fun _ => lasts.refl) m
  | enter move => exact lasts.bind (lasts.enterCallee _ _) (fun _ => lasts.refl) m
  | invoke move => exact lasts.bind (lasts.callNative _ _ _ _) (fun _ => lasts.refl) m
  | act move =>
    rw [move] at plain
    exact lasts.plain plain m

theorem turns (lasts : Lasts room K) {r : Result Variable} (hr : ∀ c m r, run c m r → K m r.2)
    (h : Turns run p room i m r) : K m r.2 := by
  induction h with
  | done last => exact lasts.turn hr last
  | left last => exact lasts.turn hr last
  | next first _ ih => exact lasts.trans (lasts.turn hr first) ih

end Machine.Lasts

theorem Machine.Inside.lasts (room : Nat) : Lasts room Inside where
  refl := .refl
  trans := .trans
  plain := Plain.inside
  place _ placed := by
    rw [eq_of_placeCallee?_eq_some placed]
    exact ⟨rfl, rfl, rfl, rfl, Nat.le_refl _⟩
  spend _ := ⟨rfl, rfl, rfl, by dsimp only; omega, by dsimp only; omega⟩
  record := inside_record

theorem Turn.inside {r : Result (Option Variable)} (hr : ∀ c m r, run c m r → m.Around r.2)
    (h : Turn run p room i m r) : m.Inside r.2 :=
  (Machine.Inside.lasts room).turn (fun c m r hr' => (hr c m r hr').inside) h

theorem Turns.inside {r : Result Variable} (hr : ∀ c m r, run c m r → m.Around r.2)
    (h : Turns run p room i m r) : m.Inside r.2 :=
  (Machine.Inside.lasts room).turns (fun c m r hr' => (hr c m r hr').inside) h

theorem Machine.around_of_enter? {inside : Machine} {node : NodeId} (hm : m.enter? node = some inside)
    {r : Result Variable} (h : inside.Inside r.2) : m.Around (leaveFrame r).2 := by
  obtain ⟨f, deeper, _, _, rfl⟩ := m.enter?_frames hm
  obtain ⟨o, m'⟩ := r
  by_cases ho : o = .error .suspended
  · subst ho
    exact ⟨h.outer, h.stop, h.steps, h.taken⟩
  · rw [leaveFrame_of_running ho]
    exact ⟨h.outer, h.stop, h.steps, h.taken⟩

theorem Executes.around {r : Result Variable} (h : Executes p room i m r) : m.Around r.2 := by
  refine h.induction (Q := fun _ _ m r => m.Around r.2) (fun {_ i} m _ => ?_) (fun m fault => ?_)
    (fun {room i m inside left} hl hm deeper turns => ?_)
  · obtain ⟨heap, hs⟩ := leaf_snd i m
    rw [settle_of_running ((Plain.leaf (i := i) trivial).ne_suspended m), hs]
    exact ⟨rfl, rfl, rfl, Nat.le_refl _⟩
  · exact ⟨rfl, rfl, rfl, Nat.le_refl _⟩
  · exact Machine.around_of_enter? hm (turns.inside deeper)

end Tickwise
