import Tickwise.Proofs.Machine.TwinTurns
set_option autoImplicit false

/-!
# Calls of twins

Twins that call evaluate twins as arguments and then enter the same function or invoke the same native. The body of a
function is executed beneath the frames of both in the same way, since none of these can be seen from there.
-/
namespace Tickwise

open Exec

def Program.Braced (p : Program) : Prop := ∀ f ∈ p.functions, ∃ statements, f.body.form = .block statements

variable {a : Abode} {p : Program} {room : Nat} {i i' c c' : Instr} {x : VarId} {ds ds' : List (Frame Variable)}
variable {callee : Callee} {args : List Instr} {ret : Ty} {s : Spot}

theorem Instr.move_call_spot (form : i.form = .call callee args ret) (p : Program) (s : Spot) :
    i.move p (s.frame i.id) = if s.state = 0 then .collect args s.index (goOn (setPosition 1 0))
      else .ofCall p i.span callee args ret (s.frame i.id) := by
  rw [i.move_call form p]
  unfold Move.ofCall
  change (if s.state = 0 then _ else _) = _
  split
  · rfl
  · rename_i h
    exact (if_neg h).symm

namespace Instr.Home

theorem arguments (form : i.form = .call callee args ret) (state : s.state = 0) : i.Home p s := by
  intro c follow move
  rw [i.move_call_spot form p s, if_pos state] at move
  unfold Move.collect at move
  unfold Instr.children
  rw [form]
  cases item : itemAt? args s.index with
  | none =>
    rw [item] at move
    cases move
  | some e =>
    rw [item] at move
    cases move
    exact mem_of_itemAt? item

theorem native {id : NativeId} (form : i.form = .call (.native id) args ret) (s : Spot) : i.Home p s := by
  by_cases state : s.state = 0
  · exact arguments form state
  · intro c follow move
    rw [i.move_call_spot form p s, if_neg state] at move
    unfold Move.ofCall at move
    rw [if_neg (show ¬ (s.frame i.id).state = 0 from state)] at move
    dsimp only at move
    split at move <;> cases move

theorem entry {id : FunctionId} (form : i.form = .call (.user id) args ret) (state : s.state = 1) : i.Home p s := by
  intro c follow move
  rw [i.move_call_spot form p s, if_neg (by omega)] at move
  unfold Move.ofCall at move
  rw [if_neg (show ¬ (s.frame i.id).state = 0 by change ¬ s.state = 0; omega)] at move
  dsimp only at move
  split at move
  · cases move
  · rw [if_pos (show (s.frame i.id).state = 1 from state)] at move
    cases move

end Instr.Home

namespace Exec

theorem turn_enter {run : Instr → Exec Variable} {m : Machine} {f : Function} (move : i.move p m.own = .enter f) :
    turn run p room i m = goOn (enterCallee i.span f room) m := by
  rw [turn_apply, move]

theorem turn_invoke {run : Instr → Exec Variable} {m : Machine} {id : NativeId} {f : NativeFn}
    (move : i.move p m.own = .invoke id f ret) : turn run p room i m = finish (callNative i.span id f ret) m := by
  rw [turn_apply, move]

theorem finish_congr {c d : Exec Variable} {m n : Machine} (same : c m = d n) : finish c m = finish d n := by
  unfold finish
  rw [bind_apply, bind_apply, same]

theorem turned_of_callNative {id n : NativeId} (form : i.form = .call (.native n) args ret) (twin : i.Twin i')
    (spares : i.Spares a.x) (parts : i.isLeaf = false) (f : NativeFn) (core : Machine) (keeps : a.Keeps core)
    (s : Spot) :
    a.Turned p i i' (finish (callNative i.span id f ret) (core.topped (a.within s i.id i'.id).left []))
      (finish (callNative i'.span id f ret) (core.topped (a.within s i.id i'.id).right [])) := by
  have home (s : Spot) : i.Home p s := .native form s
  have similar {c d : Exec Variable} (same : Similar a i.id i'.id c d) (core : Machine) (keeps : a.Keeps core)
    (s : Spot)
      (running : (c (core.topped (a.within s i.id i'.id).left [])).1 ≠ .error .suspended) :
      a.Turned p i i' (finish c (core.topped (a.within s i.id i'.id).left []))
        (finish d (core.topped (a.within s i.id i'.id).right [])) := by
    refine .of_ends twin spares parts (fun s _ _ => home s) ((Similar.finish same).ends core s keeps)
      fun suspended => ?_
    exact running (congrArg Prod.fst (eq_error_of_finish (Prod.ext suspended rfl)))
  -- Both natives see the same operands, index, heap and journal.
  let phase := callPhase s.state core.stop
  let r : NativeReply := f.handler ⟨s.operands, phase, Int32.ofInt s.index, core.heap, core.journal⟩
  let core' : Machine := { core with
    heap := r.heap
    journal := ⟨⟨id, s.operands, core.heap, phase, Int32.ofInt s.index, r.state, r.outcome⟩ :: core.journal.invocations,
      r.reports.reverse ++ core.journal.reports⟩ }
  let s' : Spot := { s with index := r.state.toInt }
  have keeps' : a.Keeps core' := keeps
  have invoked : callNative i.span id f ret (core.topped (a.within s i.id i'.id).left []) =
      (if phase = .cancel then faultAt i.span .stopped else answered i.span ret r.outcome)
        (core'.topped (a.within s' i.id i'.id).left []) := callNative_apply ..
  have invoked' : callNative i'.span id f ret (core.topped (a.within s i.id i'.id).right []) =
      (if phase = .cancel then faultAt i'.span .stopped else answered i'.span ret r.outcome)
        (core'.topped (a.within s' i.id i'.id).right []) := callNative_apply ..
  rw [finish_congr invoked, finish_congr invoked']
  by_cases cancel : phase = .cancel
  · rw [if_pos cancel, if_pos cancel]
    exact similar (.faultAt _) core' keeps' s' nofun
  · rw [if_neg cancel, if_neg cancel]
    cases r.outcome with
    | done v =>
      exact similar (.checkCrash ..) core' keeps' s' ((Plain.convert trivial v ret).ne_suspended _)
    | suspend => exact .suspended (.mk core' keeps' { s' with state := 2 } (.own twin spares _ parts (home _)))
    | fault code => exact similar (.faultAt _) core' keeps' s' nofun
    | crashed c => exact similar (.throw (.same (.crashed c))) core' keeps' s' nofun

/-- Entering a function takes the arguments, and places the frame of the body beneath that of the call. -/
theorem enterCallee_topped (span : Span) (g : Function) (core : Machine) (s : Spot) (node : NodeId)
    (top : List (Frame Variable)) :
    goOn (enterCallee span g room) (core.topped (s.frame node :: top) []) =
      match bindCrash? core.heap g.params s.operands, bindParams core.heap g.params s.operands with
      | some c, _ => (.error (.crashed c), core.topped (Spot.frame { s with operands := [] } node :: top) [])
      | none, .error fault =>
        (.error (.fault ⟨fault, span⟩), core.topped (Spot.frame { s with operands := [] } node :: top) [])
      | none, .ok params =>
        if room = 0 then
          (.error (.fault ⟨.stackOverflow, span⟩), core.topped (Spot.frame { s with operands := [] } node :: top) [])
        else (.ok none, core.topped (Spot.frame ⟨2, 0, []⟩ node :: top) [Frame.ofCall g.body.id params]) := by
  change goOn (do
    let params ← checkCrash span (bindCrash? · g.params s.operands) (bindParams · g.params s.operands)
    if room = 0 then faultAt span .stackOverflow
    else
      placeCallee span g.body.id params
      setPosition 2 0) (core.topped (Spot.frame { s with operands := [] } node :: top) []) = _
  have heap : (core.topped (Spot.frame { s with operands := [] } node :: top) []).heap = core.heap := rfl
  unfold goOn
  rw [bind_apply, bind_apply, checkCrash_apply, heap]
  cases bindCrash? core.heap g.params s.operands with
  | some c => rfl
  | none =>
    dsimp only
    rw [checkHeap_apply, heap]
    cases bindParams core.heap g.params s.operands with
    | error fault => rfl
    | ok params =>
      have bound (m : Machine) : check span (.ok params : Except Fault (List Variable)) m = (.ok params, m) := rfl
      rw [bound]
      dsimp only
      by_cases full : room = 0
      · rw [if_pos full, if_pos full]
        rfl
      · rw [if_neg full, if_neg full]
        rfl

theorem turned_of_enterCallee {id : FunctionId} {g : Function} {statements : List Instr} {args' : List Instr}
    (form : i.form = .call (.user id) args ret) (form' : i'.form = .call (.user id) args' ret)
    (found : p.function? id = some g) (block : g.body.form = .block statements) (twin : i.Twin i')
    (spares : i.Spares a.x)
    (core : Machine) (keeps : a.Keeps core) (s : Spot) :
    a.Turned p i i' (goOn (enterCallee i.span g room) (core.topped (a.within s i.id i'.id).left []))
      (goOn (enterCallee i'.span g room) (core.topped (a.within s i.id i'.id).right [])) := by
  have left : goOn (enterCallee i.span g room) (core.topped (a.within s i.id i'.id).left []) = _ :=
    enterCallee_topped ..
  have right : goOn (enterCallee i'.span g room) (core.topped (a.within s i.id i'.id).right []) = _ :=
    enterCallee_topped ..
  rw [left, right]
  cases bindCrash? core.heap g.params s.operands with
  | some c => exact .ended (.mk core { s with operands := [] } keeps (.error (.same _))) nofun nofun
  | none =>
    cases bindParams core.heap g.params s.operands with
    | error fault => exact .ended (.mk core { s with operands := [] } keeps (.error (.fault ..))) nofun nofun
    | ok params =>
      dsimp only
      split
      · exact .ended (.mk core { s with operands := [] } keeps (.error (.fault ..))) nofun nofun
      · have move (j : Instr) (args : List Instr) (form : j.form = .call (.user id) args ret) :
            j.move p (Spot.frame ⟨2, 0, []⟩ j.id) = .run g.body (result j.span ret) := by
          rw [j.move_call form p]
          exact Move.ofCall_user rfl found
        exact .next (.mk core keeps ⟨2, 0, []⟩
          (.part twin spares _ (move i args form) (move i' args' form') (.body block rfl rfl [])))

theorem deeper_of_running {m : Machine} (running : (exec p room i m).1 ≠ .error .suspended) :
    (exec p room i m).2.deeper = [] := by
  have settled {c : Exec Variable} (h : (settle c m).1 ≠ .error .suspended) : (settle c m).2.deeper = [] := by
    unfold settle at h ⊢
    split
    · rename_i suspended
      rw [suspended] at h
      exact absurd rfl h
    · rfl
  cases room with
  | zero =>
    unfold exec at running ⊢
    by_cases whole : i.isLeaf = true
    · rw [if_pos whole] at running ⊢
      exact settled running
    · rw [if_neg whole] at running ⊢
      exact settled running
  | succ room =>
    unfold exec at running ⊢
    by_cases whole : i.isLeaf = true
    · rw [if_pos whole] at running ⊢
      exact settled running
    · rw [if_neg whole] at running ⊢
      unfold inFrame at running ⊢
      cases entered : m.enter? i.id with
      | none =>
        rw [entered] at running
        exact settled running
      | some inside =>
        rw [entered] at running
        dsimp only at running ⊢
        generalize form (exec p room) p room i inside = r at running ⊢
        obtain ⟨o, m'⟩ := r
        by_cases suspended : o = .error .suspended
        · subst suspended
          exact absurd rfl running
        · rw [leaveFrame_of_running suspended]
          rfl

/-- An instruction that is suspended once more leaves its own frame behind again. -/
theorem left_of_suspended {m : Machine} {f : Frame Variable} {ds : List (Frame Variable)} (parts : i.isLeaf = false)
    (left : m.deeper = f :: ds) (node : f.node = i.id) (suspended : (exec p room i m).1 = .error .suspended) :
    ∃ g ds', (exec p room i m).2.deeper = g :: ds' ∧ g.kind = f.kind := by
  have faulted (span : Span) (fault : Fault) :
      (settle (faultAt span fault) m : Result Variable).1 ≠ .error .suspended := nofun
  cases room with
  | zero =>
    unfold exec at suspended
    rw [if_neg (by simp [parts])] at suspended
    exact absurd suspended (faulted _ _)
  | succ room =>
    unfold exec at suspended ⊢
    rw [if_neg (by simp [parts])] at suspended ⊢
    unfold inFrame at suspended ⊢
    unfold Machine.enter? at suspended ⊢
    rw [left] at suspended ⊢
    dsimp only at suspended ⊢
    rw [if_pos node] at suspended ⊢
    by_cases live : f.live = true
    · rw [if_pos live] at suspended ⊢
      dsimp only at suspended ⊢
      have kept : _ ∧
          (form (exec p room) p room i { m with frames := f :: m.frames, deeper := ds }).2.own.kind = f.kind :=
        (inside_turns ..).own_kind (List.cons_ne_nil _ _)
      generalize form (exec p room) p room i _ = r at suspended kept ⊢
      obtain ⟨o, m'⟩ := r
      by_cases running : o = .error .suspended
      · subst running
        exact ⟨m'.own, m'.deeper, rfl, kept.2⟩
      · rw [leaveFrame_of_running running] at suspended
        exact absurd suspended running
    · rw [if_neg live] at suspended
      exact absurd suspended (faulted _ _)

/-- A function body does the same whatever frames are on top of those around it. -/
theorem exec_body (p : Program) (room : Nat) {b : Instr} {statements : List Instr} {f : Frame Variable} (form : b.form = .block statements)
    (node : f.node = b.id) (call : f.call = true) (core : Machine) (ds : List (Frame Variable)) :
    ∃ (o : Except Interrupt Variable) (core' : Machine) (ds' : List (Frame Variable)), core'.frames = core.frames ∧
      (∀ top, exec p room b (core.topped top (f :: ds)) = (o, core'.topped top ds')) ∧
      (o ≠ .error .suspended → ds' = []) ∧
      (o = .error .suspended → ∃ g ds'', ds' = g :: ds'' ∧ g.node = b.id ∧ g.call = true) := by
  let m₀ : Machine := { core with frames := [], deeper := f :: ds }
  have parts : b.isLeaf = false := by
    unfold Instr.isLeaf
    rw [form]
    rfl
  have bare : (exec p room b m₀).2.frames = [] := List.map_eq_nil_iff.1 (executes_exec p room b m₀).around.frames
  refine ⟨(exec p room b m₀).1, { (exec p room b m₀).2 with frames := core.frames }, (exec p room b m₀).2.deeper, rfl,
    fun top => ?_, deeper_of_running, fun suspended => ?_⟩
  · have lifted : exec p room b (m₀.above (top ++ core.frames)) = _ := lifts_exec (.body form rfl rfl node call)
    refine Eq.trans lifted ?_
    unfold Machine.above
    rw [bare]
    rfl
  · obtain ⟨g, ds', left, kind⟩ := left_of_suspended parts (m := m₀) rfl node suspended
    exact ⟨g, ds', left, (congrArg Prod.fst kind).trans node, (congrArg (fun k => k.2.1) kind).trans call⟩

theorem Similar.result {j k : NodeId} {span span' : Span} (ret : Ty) {o o' : Except Interrupt Variable}
    (agree : Agree o o') :
    Similar a j k (result span ret o) (result span' ret o') := by
  cases agree with
  | ok same => exact .finish (.ite .void (.faultAt _))
  | error same =>
    cases same with
    | fault => exact .throw (.fault ..)
    | same =>
      rename_i e
      cases e with
      | returned v => exact .finish (.checkCrash ..)
      | _ => exact .throw (.same _)

theorem result_ne_none (span : Span) (ret : Ty) (o : Except Interrupt Variable) (m m' : Machine) :
    result span ret o m ≠ (.ok none, m') := by
  cases o with
  | ok v => exact finish_ne_none _ m m'
  | error e =>
    cases e with
    | returned v => exact finish_ne_none _ m m'
    | _ => nofun

theorem turned_of_body {id : FunctionId} {g : Function} {statements args' : List Instr}
    (form : i.form = .call (.user id) args ret) (form' : i'.form = .call (.user id) args' ret)
    (found : p.function? id = some g) (block : g.body.form = .block statements) (called : s.state ≠ 0)
    (entered : s.state ≠ 1)
    (twin : i.Twin i') (spares : i.Spares a.x) {core : Machine} (keeps : a.Keeps core)
    (rests : Rests p a.x i i' (s.frame i.id :: ds) (s.frame i'.id :: ds')) :
    a.Turned p i i' (turn (exec p room) p room i (core.topped (a.within s i.id i'.id).left ds))
      (turn (exec p room) p room i' (core.topped (a.within s i.id i'.id).right ds')) := by
  have moves (j : Instr) (args : List Instr) (form : j.form = .call (.user id) args ret) :
      j.move p (s.frame j.id) = .run g.body (result j.span ret) := by
    rw [j.move_call_spot form p s, if_neg called]
    unfold Move.ofCall
    rw [if_neg (show ¬ (s.frame j.id).state = 0 from called)]
    dsimp only
    rw [found]
    exact if_neg entered
  have move := moves i args form
  have move' := moves i' args' form'
  have body : Rests p a.x g.body g.body ds ds' := by
    rcases rests.inner twin move move' with inner | ⟨_, _, mem⟩
    · exact inner
    · -- A body is no part of an expression.
      obtain ⟨_, same⟩ := forall₂_left twin.children mem
      exact absurd block (same.not_block _)
  generalize hb : g.body = b at body block move move'
  cases body with
  | fresh same | own same | part same => exact absurd block (same.not_block _)
  | body _ node call ds =>
    rename_i f _
    obtain ⟨o, core', left, frames, runs, ended, suspended⟩ := exec_body p room block node call core ds
    have keeps' : a.Keeps core' := (congrArg (Frame.findVar? a.x) frames).trans keeps
    rw [turn_run (m := core.topped (a.within s i.id i'.id).left (f :: ds)) move,
      turn_run (m := core.topped (a.within s i.id i'.id).right (f :: ds)) move', runs, runs]
    dsimp only
    have plain := i.move_isPlain p (s.frame i.id)
    have plain' := i'.move_isPlain p (s.frame i'.id)
    rw [move] at plain
    rw [move'] at plain'
    by_cases running : o = .error .suspended
    · obtain ⟨g', rest, rfl, node', call'⟩ := suspended running
      rw [running, plain.1, plain'.1]
      exact .suspended (.mk core' keeps' s (.part twin spares s move move' (.body block node' call' rest)))
    · rw [ended running]
      have agree : Agree o o := by
        cases o with
        | ok v => exact .ok rfl
        | error e => exact .error (.same e)
      have ends : a.Ends i.id i'.id (result i.span ret o _) (result i'.span ret o _) :=
        (Similar.result ret agree).ends core' s keeps'
      refine .of_ends twin spares ?_ (fun _ _ none => (result_ne_none _ _ _ _ _ none).elim) ends ?_
      · exact Instr.isLeaf_of_run move
      · exact (plain.2 o running fun _ _ _ _ => trivial).ne_suspended _

section

variable (deeper : Matched p room)

include deeper

theorem turned_of_arguments {args' : List Instr} (form : i.form = .call callee args ret)
    (form' : i'.form = .call callee args' ret) (same : args.Forall₂ Instr.Twin args') (state : s.state = 0)
    (twin : i.Twin i') (spares : i.Spares a.x) (parts : i.isLeaf = false) {core : Machine} (keeps : a.Keeps core)
    (rests : Rests p a.x i i' (s.frame i.id :: ds) (s.frame i'.id :: ds')) :
    a.Turned p i i' (turn (exec p room) p room i (core.topped (a.within s i.id i'.id).left ds))
      (turn (exec p room) p room i' (core.topped (a.within s i.id i'.id).right ds')) := by
  have move := i.move_call_spot form p s
  have move' := i'.move_call_spot form' p s
  rw [if_pos state] at move move'
  unfold Move.collect at move move'
  have item := forall₂_itemAt? same s.index
  generalize itemAt? args s.index = e at item move
  generalize itemAt? args' s.index = e' at item move'
  cases item with
  | none =>
    obtain ⟨rfl, rfl⟩ := rests.bare twin fun _ _ runs => by cases move.symm.trans runs
    rw [turn_act (m := core.topped (a.within s i.id i'.id).left []) move,
      turn_act (m := core.topped (a.within s i.id i'.id).right []) move']
    have home : i.Home p ⟨1, 0, s.operands⟩ := by
      cases callee with
      | native id => exact .native form _
      | user id => exact .entry form rfl
    exact .next (.mk core keeps ⟨1, 0, s.operands⟩ (.own twin spares _ parts home))
  | some part =>
    refine turned_of_run deeper twin spares part keeps rests move move' fun o o' core agree running keeps => ?_
    cases agree with
    | ok same =>
      subst same
      rename_i v
      exact .next (.mk core keeps ⟨0, s.index + 1, s.operands ++ [v]⟩ (.own twin spares _ parts (.arguments form rfl)))
    | error same =>
      exact .ended (.mk core s keeps (.error same)) (fun h => running (congrArg _ (Except.error.inj h))) nofun

theorem turned_of_call (braced : p.Braced) (form : i.form = .call callee args ret) (twin : i.Twin i')
    (spares : i.Spares a.x) {m n : Machine} (stands : a.Stands p i i' m n) :
    a.Turned p i i' (turn (exec p room) p room i m) (turn (exec p room) p room i' n) := by
  obtain ⟨core, keeps, s, rests⟩ := stands
  rename_i ds ds'
  have parts : i.isLeaf = false := by
    unfold Instr.isLeaf
    rw [form]
    rfl
  obtain ⟨args', form', same⟩ : ∃ args', i'.form = .call callee args' ret ∧ args.Forall₂ Instr.Twin args' := by
    have forms := twin.form
    rw [form] at forms
    generalize i'.form = f' at forms
    cases forms with
    | call _ same => exact ⟨_, rfl, same⟩
  by_cases state : s.state = 0
  · exact turned_of_arguments deeper form form' same state twin spares parts keeps rests
  · have move := i.move_call_spot form p s
    have move' := i'.move_call_spot form' p s
    rw [if_neg state] at move move'
    unfold Move.ofCall at move move'
    rw [if_neg (show ¬ (s.frame i.id).state = 0 from state)] at move
    rw [if_neg (show ¬ (s.frame i'.id).state = 0 from state)] at move'
    have acts {fault : Fault} (move : i.move p (s.frame i.id) = .act (faultAt i.span fault))
        (move' : i'.move p (s.frame i'.id) = .act (faultAt i'.span fault)) :
        a.Turned p i i' (turn (exec p room) p room i (core.topped (a.within s i.id i'.id).left ds))
          (turn (exec p room) p room i' (core.topped (a.within s i.id i'.id).right ds')) := by
      obtain ⟨rfl, rfl⟩ := rests.bare twin fun _ _ runs => by cases move.symm.trans runs
      rw [turn_act (m := core.topped (a.within s i.id i'.id).left []) move,
        turn_act (m := core.topped (a.within s i.id i'.id).right []) move']
      exact .ended ((Similar.faultAt fault).ends core s keeps) nofun nofun
    cases callee with
    | native id =>
      dsimp only at move move'
      cases known : p.env.natives.get? id with
      | none =>
        rw [known] at move move'
        exact acts move move'
      | some g =>
        rw [known] at move move'
        obtain ⟨rfl, rfl⟩ := rests.bare twin fun _ _ runs => by cases move.symm.trans runs
        rw [turn_invoke (m := core.topped (a.within s i.id i'.id).left []) move,
          turn_invoke (m := core.topped (a.within s i.id i'.id).right []) move']
        exact turned_of_callNative form twin spares parts g core keeps s
    | user id =>
      dsimp only at move move'
      cases found : p.function? id with
      | none =>
        rw [found] at move move'
        exact acts move move'
      | some g =>
        obtain ⟨statements, block⟩ := braced g (List.mem_of_getElem? found)
        by_cases entry : s.state = 1
        · rw [found] at move move'
          dsimp only at move move'
          rw [if_pos (show (s.frame i.id).state = 1 from entry)] at move
          rw [if_pos (show (s.frame i'.id).state = 1 from entry)] at move'
          obtain ⟨rfl, rfl⟩ := rests.bare twin fun _ _ runs => by cases move.symm.trans runs
          rw [turn_enter (m := core.topped (a.within s i.id i'.id).left []) move,
            turn_enter (m := core.topped (a.within s i.id i'.id).right []) move']
          exact turned_of_enterCallee form form' found block twin spares core keeps s
        · exact turned_of_body form form' found block state entry twin spares keeps rests

end

end Exec

end Tickwise
