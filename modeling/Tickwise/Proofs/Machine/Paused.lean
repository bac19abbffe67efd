import Tickwise.Proofs.Machine.InFlight
import Tickwise.Proofs.Native.Protocol
set_option autoImplicit false

/-!
# Where an instruction is paused

A suspended instruction goes on at a step that the budget did not allow, or with a native that asked to be
invoked again. No other native is invoked before that.
-/
namespace Tickwise

open Exec

/-- The frames, outermost first, are those of an instruction that is suspended: each is about to execute
what the next one belongs to, and the innermost is at a step or at a pending native. -/
inductive Paused (p : Program) : Calling → Instr → List (Frame Variable) → Prop
  | step {i : Instr} {f : Frame Variable} {span : Span} {state : Nat} {index : Int}
      (move : i.move p f = .pass span state index) : Paused p .idle i [f]
  | native {i : Instr} {f : Frame Variable} {id : NativeId} {g : NativeFn} {ret : Ty}
      (move : i.move p f = .invoke id g ret) (state : f.state = 2) :
      Paused p (.pending ⟨id, f.operands, Int32.ofInt f.index⟩) i [f]
  | part {call : Calling} {i c : Instr} {f : Frame Variable} {rest : List (Frame Variable)}
      {follow : Except Interrupt Variable → Exec (Option Variable)}
      (move : i.move p f = .run c follow) (parts : c.isLeaf = false) (inner : Paused p call c rest) :
      Paused p call i (f :: rest)

/-- The frames, outermost first, are those that an instruction goes on with: a native is invoked to go on
with the pending call, or else to start one. -/
inductive Poised (p : Program) : Calling → Instr → List (Frame Variable) → Prop
  | fresh {i : Instr} : Poised p .idle i []
  | own {i : Instr} {f : Frame Variable}
      (starts : ∀ id g ret, i.move p f = .invoke id g ret → f.state = 1 ∧ f.index = 0) :
      Poised p .idle i [f]
  | native {i : Instr} {f : Frame Variable} {id : NativeId} {g : NativeFn} {ret : Ty}
      (move : i.move p f = .invoke id g ret) (state : f.state = 2) :
      Poised p (.pending ⟨id, f.operands, Int32.ofInt f.index⟩) i [f]
  | part {call : Calling} {i c : Instr} {f : Frame Variable} {rest : List (Frame Variable)}
      {follow : Except Interrupt Variable → Exec (Option Variable)}
      (move : i.move p f = .run c follow) (inner : Poised p call c rest) : Poised p call i (f :: rest)

theorem Paused.poised {p : Program} {call : Calling} {i : Instr} {frames : List (Frame Variable)}
    (h : Paused p call i frames) : Poised p call i frames := by
  induction h with
  | step move => exact .own fun id g ret invokes => by rw [move] at invokes; cases invokes
  | native move state => exact .native move state
  | part move _ _ ih => exact .part move ih

namespace Poised

variable {p : Program} {call : Calling} {i c : Instr} {f : Frame Variable} {rest : List (Frame Variable)}

theorem inner {follow : Except Interrupt Variable → Exec (Option Variable)}
    (h : Poised p call i (f :: rest)) (move : i.move p f = .run c follow) : Poised p call c rest := by
  cases h with
  | own => exact .fresh
  | native invokes => cases move.symm.trans invokes
  | part runs inner =>
    cases move.symm.trans runs
    exact inner

theorem idle (h : Poised p call i (f :: rest)) (runs : ∀ c follow, i.move p f ≠ .run c follow)
    (invokes : ∀ id g ret, i.move p f ≠ .invoke id g ret) : call = .idle := by
  cases h with
  | own => rfl
  | native move => exact absurd move (invokes _ _ _)
  | part move => exact absurd move (runs _ _)

theorem invokes {id : NativeId} {g : NativeFn} {ret : Ty} (h : Poised p call i (f :: rest))
    (move : i.move p f = .invoke id g ret) :
    (call = .idle ∧ f.state = 1 ∧ f.index = 0) ∨
      call = .pending ⟨id, f.operands, Int32.ofInt f.index⟩ ∧ f.state = 2 := by
  cases h with
  | own starts => exact .inl ⟨rfl, starts _ _ _ move⟩
  | native invokes state =>
    cases move.symm.trans invokes
    exact .inr ⟨rfl, state⟩
  | part runs => cases move.symm.trans runs

end Poised

def Move.PassesStop : Move → Prop
  | run _ follow => ∀ span, follow (.error (.fault ⟨.stopped, span⟩)) = throw (.fault ⟨.stopped, span⟩)
  | _ => True

namespace Move.PassesStop

theorem eval (e : Instr) (follow : Variable → Exec (Option Variable)) : (Move.eval e follow).PassesStop :=
  fun _ => rfl

theorem sequence (items : List Instr) (index : Int) (state : Nat) (afterwards : Exec (Option Variable)) :
    (Move.sequence items index state afterwards).PassesStop := by
  unfold Move.sequence
  split
  · exact eval _ _
  · trivial

theorem collect (es : List Instr) (index : Int) (afterwards : Exec (Option Variable)) :
    (Move.collect es index afterwards).PassesStop := by
  unfold Move.collect
  split
  · exact eval _ _
  · trivial

end Move.PassesStop

/-- No instruction absorbs a stop: neither a loop nor a switch, a `try` or a call. -/
theorem Instr.move_passesStop (p : Program) (i : Instr) (f : Frame Variable) : (i.move p f).PassesStop := by
  unfold Instr.move Move.ofBlock Move.ofDeclare Move.ofBranch Move.ofWhile Move.ofDoWhile Move.ofFor
    Move.ofSwitch Move.ofTry Move.ofStore Move.ofBinary Move.ofLogical Move.ofTernary Move.ofCall
  repeat' split
  all_goals first
    | trivial
    | exact .eval _ _
    | exact .sequence _ _ _ _
    | exact .collect _ _ _
    | exact fun _ => rfl

theorem Instr.move_call {i : Instr} {callee : Callee} {args : List Instr} {ret : Ty}
    (form : i.form = .call callee args ret) (p : Program) (f : Frame Variable) :
    i.move p f = .ofCall p i.span callee args ret f := by
  unfold Instr.move
  rw [form]
  rfl

namespace Move

variable {p : Program} {span : Span} {args : List Instr} {ret : Ty} {f : Frame Variable}

theorem collect_ne_invoke (es : List Instr) (index : Int) (afterwards : Exec (Option Variable))
    (id : NativeId) (g : NativeFn) (ret : Ty) : collect es index afterwards ≠ .invoke id g ret := by
  unfold collect
  split <;> nofun

theorem ofCall_native {id : NativeId} {g : NativeFn} (called : f.state ≠ 0)
    (known : p.env.natives.get? id = some g) :
    ofCall p span (.native id) args ret f = .invoke id g ret := by
  simp [ofCall, called, known]

theorem invokes_of_ofCall {n id : NativeId} {g : NativeFn} {ty : Ty}
    (invokes : ofCall p span (.native n) args ret f = .invoke id g ty) :
    f.state ≠ 0 ∧ n = id ∧ p.env.natives.get? id = some g := by
  unfold ofCall at invokes
  split at invokes
  case isTrue => exact absurd invokes (collect_ne_invoke _ _ _ _ _ _)
  case isFalse called =>
    dsimp only at invokes
    split at invokes
    case h_1 => cases invokes
    case h_2 known =>
      cases invokes
      exact ⟨called, rfl, known⟩

theorem ofCall_ne_pass {callee : Callee} {at_ : Span} {state : Nat} {index : Int} :
    ofCall p span callee args ret f ≠ .pass at_ state index := by
  unfold ofCall collect
  repeat' split
  all_goals nofun

theorem ofCall_user {id : FunctionId} {g : Function} (entered : f.state = 2)
    (found : p.function? id = some g) :
    ofCall p span (.user id) args ret f = .run g.body (result span ret) := by
  simp [ofCall, entered, found]

theorem leads_ofCall_native (p : Program) (span : Span) (id : NativeId) (args : List Instr) (ret : Ty)
    (f : Frame Variable) :
    (ofCall p span (.native id) args ret f).Leads f.index 0 False fun s n => s = 1 → n = 0 := by
  unfold ofCall
  split
  · exact .collect (fun _ _ => nofun) (.setPosition fun _ => rfl)
  · dsimp only
    split
    · nofun
    · trivial

end Move

theorem Form.call_of_waiting_callee {ι : Type} {form : Form ι} {state : Nat} {index : Int} {id : FunctionId}
    (waits : form.waiting state index = .callee id) :
    state = 2 ∧ ∃ args ret, form = .call (.user id) args ret := by
  by_cases own : state < form.ownStates
  · exact absurd waits (waiting_ne_callee own index id)
  · have states : state < form.states := Form.state_lt_of_waiting (by rw [waits]; nofun)
    cases form with
    | call callee args ret =>
      obtain rfl : state = 2 := by
        simp only [ownStates, Form.states] at own states
        omega
      cases callee with
      | user g =>
        cases waits
        exact ⟨rfl, args, ret, rfl⟩
      | native g => cases waits
    | _ => exact absurd states own

theorem Instr.invokes_of_move {p : Program} {i : Instr} {f : Frame Variable} {id : NativeId} {g : NativeFn}
    {ret : Ty} (hs : f.state < i.form.states) (move : i.move p f = .invoke id g ret) :
    f.state ≠ 0 ∧ p.env.natives.get? id = some g ∧ ∃ args ty, i.form = .call (.native id) args ty := by
  obtain ⟨_, args, ty, form⟩ := i.agrees_of_move hs move nofun
  obtain ⟨called, _, known⟩ := Move.invokes_of_ofCall ((i.move_call form p f).symm.trans move)
  exact ⟨called, known, args, ty, form⟩

variable {p : Program} {room : Nat} {i : Instr} {m m' : Machine} {call : Calling}

theorem Poised.start {f : Frame Variable} (fits : Fits p i [f]) (hs : f.state = 0) : Poised p .idle i [f] :=
  .own fun _ _ _ invokes => absurd hs (Instr.invokes_of_move fits.2.2.1 invokes).1

theorem Turn.leads {P : Nat → Int → Prop} (h : Turn (Executes p room) p room i m (.ok none, m'))
    (hm : m.frames ≠ []) (leads : (i.move p m.own).Leads m.own.index 0 False P) :
    P m'.own.state m'.own.index := by
  generalize hc : ((.ok none, m') : Result (Option Variable)) = r at h
  cases h with
  | child move inner =>
    rw [move] at leads
    have around := inner.around
    have index := congrArg Frame.index around.own
    exact (leads _ _ m' (around.frames_ne_nil hm) index hc.symm).1
  | pass move =>
    rw [move] at leads
    exact absurd leads (Nat.not_lt_zero _)
  | enter move =>
    rw [move] at leads
    exact leads.elim
  | invoke move => exact absurd hc.symm (finish_ne_none _ m m')
  | act move =>
    rw [move] at leads
    exact (leads m m' hm rfl hc.symm).1

theorem Turn.poised (h : Turn (Executes p room) p room i m (.ok none, m')) (hm : m.frames ≠ [])
    (fits : Fits p i (m.own :: m.deeper)) (poised : Poised p call i (m.own :: m.deeper)) :
    Poised p .idle i (m'.own :: m'.deeper) := by
  have around : ∀ c m r, Executes p room c m r → m.Around r.2 := fun _ _ _ hr => hr.around
  have leaves : ∀ c m r, Executes p room c m r → Fits p c m.deeper → Leaves p c m r :=
    fun _ _ _ hr => hr.leaves
  have fits' := h.fits around leaves hm fits
  rcases h.goes around leaves hm fits with
    ⟨opens, same, own⟩ | ⟨id, g, params, waits, found, new⟩ | ⟨none, state⟩
  · have idle := poised.idle (fun c follow runs => by rw [opens] at runs; cases runs)
      fun id g ret invokes => by rw [opens] at invokes; cases invokes
    subst idle
    rw [same, own] at fits' ⊢
    generalize m.deeper = rest at poised fits' ⊢
    cases poised with
    | own =>
      refine .own fun id g ret invokes => ?_
      obtain ⟨_, _, args, ty, form⟩ := Instr.invokes_of_move fits'.2.2.1 invokes
      rw [i.move_call form p] at opens invokes
      cases opens.symm.trans invokes
    | part move => cases opens.symm.trans move
  · obtain ⟨entered, args, ret, form⟩ := Form.call_of_waiting_callee waits
    have move := (i.move_call form p m'.own).trans (Move.ofCall_user entered found)
    rw [new]
    exact .part move (.start (fits_start p g.body _ rfl rfl rfl) rfl)
  · rw [none] at fits' ⊢
    refine .own fun id g ret invokes => ?_
    obtain ⟨called, _, args, ty, form⟩ := Instr.invokes_of_move fits'.2.2.1 invokes
    have leads := Move.leads_ofCall_native p i.span id args ty m.own
    rw [← i.move_call form p m.own] at leads
    have first : m'.own.state = 1 := by
      rw [form] at state
      change m'.own.state < 2 at state
      omega
    exact ⟨first, h.leads hm leads first⟩

/-- The frame shows whether a native is pending. -/
def Calling.Shown (call : Calling) (j : Instr) (g : Frame Variable) : Prop :=
  match call with
  | .idle => ¬ j.PendingNative g
  | .pending c => g.state = 2 ∧ g.operands = c.args ∧ Int32.ofInt g.index = c.state ∧
      ∃ args ret, j.form = .call (.native c.native) args ret
  | .over => False

theorem Paused.inFlight {frames : List (Frame Variable)} (h : Paused p call i frames) (fits : Fits p i frames) :
    ∃ j g, InFlight p i frames j g ∧ call.Shown j g := by
  induction h with
  | @step i f span state index move =>
    refine ⟨i, f, .idle fits.1 fits.2.1 (fits.agrees move nofun), ?_⟩
    rintro ⟨_, id, args, ret, form⟩
    exact Move.ofCall_ne_pass ((i.move_call form p f).symm.trans move)
  | @native i f id g ret move state =>
    obtain ⟨waits, args, ty, form⟩ := fits.agrees move nofun
    exact ⟨i, f, .idle fits.1 fits.2.1 waits, state, rfl, rfl, args, ty, form⟩
  | @part call i c f rest follow move parts inner ih =>
    have agrees := fits.agrees move nofun
    obtain ⟨j, g, inFlight, shown⟩ := ih (fits.inner agrees)
    obtain ⟨node, live, _, beneath⟩ := fits
    rcases agrees with waits | ⟨id, h, waits, found, rfl⟩
    · exact ⟨j, g, .child node live waits parts inFlight, shown⟩
    · rw [waits] at beneath
      obtain ⟨_, _, call, _⟩ := beneath
      exact ⟨j, g, .callee node live waits found call inFlight, shown⟩

theorem Fits.entered (fits : Fits p i m.deeper) : ∃ inside, m.enter? i.id = some inside := by
  cases hd : m.deeper with
  | nil => exact ⟨_, Machine.enter?_of_nil hd i.id⟩
  | cons f rest => exact ⟨_, fits.enter?_of_cons hd⟩

theorem Poised.enter {inside : Machine} (poised : Poised p call i m.deeper) (fits : Fits p i m.deeper)
    (hm : m.enter? i.id = some inside) : Poised p call i (inside.own :: inside.deeper) := by
  cases hd : m.deeper with
  | nil =>
    rw [m.enter?_of_nil hd] at hm
    rw [hd] at poised
    cases hm
    cases poised
    change Poised p .idle i (_ :: m.deeper)
    rw [hd]
    exact .start (fits_start p i _ rfl rfl rfl) rfl
  | cons f rest =>
    rw [fits.enter?_of_cons hd] at hm
    rw [hd] at poised
    cases hm
    exact poised

theorem Instr.move_of_isLeaf (hl : i.isLeaf = true) (p : Program) (f : Frame Variable) :
    ∃ action, i.move p f = .act action := by
  obtain ⟨id, span, form⟩ := i
  cases form with
  | load place =>
    obtain ⟨root, name, path, ty⟩ := place
    obtain rfl := List.isEmpty_iff.1 hl
    have empty : itemAt? ([] : List Instr) f.index = none := by simp [itemAt?]
    refine ⟨finish (load span ⟨root, name, [], ty⟩), ?_⟩
    change Move.collect [] f.index _ = _
    unfold Move.collect
    rw [empty]
    rfl
  | ret value =>
    cases value with
    | none => exact ⟨_, rfl⟩
    | some => cases hl
  | empty | breakTo | continueTo | literal | new => exact ⟨_, rfl⟩
  | _ => cases hl

theorem Poised.idle_of_isLeaf (hl : i.isLeaf = true) {frames : List (Frame Variable)}
    (poised : Poised p call i frames) : call = .idle := by
  cases poised with
  | native move =>
    obtain ⟨_, act⟩ := i.move_of_isLeaf hl p _
    cases act.symm.trans move
  | part move =>
    obtain ⟨_, act⟩ := i.move_of_isLeaf hl p _
    cases act.symm.trans move
  | _ => rfl

theorem Poised.idle_of_nil (poised : Poised p call i []) : call = .idle := by
  cases poised
  rfl

end Tickwise
