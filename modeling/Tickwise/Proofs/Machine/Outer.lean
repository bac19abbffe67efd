import Tickwise.Proofs.Machine.Invoked
set_option autoImplicit false

/-!
# Frames further out

The body of a function is executed in a frame that ends the search for variables and takes the declarations beneath
it. So whatever the body does it does in the same way above any frames further out, and leaves these as they are.
-/
namespace Tickwise

open Exec

namespace Frame

variable {id : VarId} {v : Variable} {fs gs outer : List (Frame Variable)}

/-- Among the frames is that of a function body, which is a scope. -/
def Sealed (fs : List (Frame Variable)) : Prop := ∃ f ∈ fs, f.call = true ∧ f.scope = true

theorem Sealed.call (closed : Sealed fs) : ∃ f ∈ fs, f.call = true :=
  closed.imp fun _ hf => ⟨hf.1, hf.2.1⟩

theorem Sealed.scope (closed : Sealed fs) : ∃ f ∈ fs, f.scope = true :=
  closed.imp fun _ hf => ⟨hf.1, hf.2.2⟩

theorem Sealed.of_bare (closed : Sealed fs) (same : gs.map bare = fs.map bare) : Sealed gs := by
  obtain ⟨f, hf, call, scope⟩ := closed
  have mem := List.mem_map_of_mem (f := bare) hf
  rw [← same] at mem
  obtain ⟨g, hg, like⟩ := List.mem_map.1 mem
  exact ⟨g, hg, (congrArg Frame.call like).trans call, (congrArg Frame.scope like).trans scope⟩

theorem Sealed.framed (closed : Sealed fs.tail) : fs ≠ [] := by
  rintro rfl
  obtain ⟨_, hf, _⟩ := closed
  cases hf

/-- Frames further out than that of a function body have no part in a search. -/
theorem findVar?_append (call : ∃ f ∈ fs, f.call = true) : findVar? id (fs ++ outer) = findVar? id fs := by
  induction fs with
  | nil => simp at call
  | cons f fs ih =>
    rw [List.cons_append]
    unfold findVar?
    cases f.local? id with
    | some v => rfl
    | none =>
      by_cases own : f.call = true
      · simp only [own, if_true]
      · simp only [own]
        exact ih (((List.exists_mem_cons_iff ..).1 call).resolve_left own)

theorem setVar_append (call : ∃ f ∈ fs, f.call = true) : setVar id v (fs ++ outer) = setVar id v fs ++ outer := by
  induction fs with
  | nil => simp at call
  | cons f fs ih =>
    rw [List.cons_append]
    unfold setVar
    by_cases here : (f.local? id).isSome = true
    · rw [if_pos here, if_pos here]
      rfl
    · rw [if_neg here, if_neg here]
      by_cases own : f.call = true
      · rw [if_pos own, if_pos own]
        rfl
      · rw [if_neg own, if_neg own, ih (((List.exists_mem_cons_iff ..).1 call).resolve_left own)]
        rfl

/-- A declaration goes no further out than to the first scope. -/
theorem declareVar_append (scope : ∃ f ∈ fs, f.scope = true) :
    declareVar v (fs ++ outer) = declareVar v fs ++ outer := by
  induction fs with
  | nil => simp at scope
  | cons f fs ih =>
    rw [List.cons_append]
    unfold declareVar
    by_cases own : f.scope = true
    · rw [if_pos own, if_pos own]
      rfl
    · rw [if_neg own, if_neg own, ih (((List.exists_mem_cons_iff ..).1 scope).resolve_left own)]
      rfl

end Frame

namespace Machine

variable {m n : Machine} {outer : List (Frame Variable)} {id : VarId} {v : Variable}

def above (m : Machine) (outer : List (Frame Variable)) : Machine := { m with frames := m.frames ++ outer }

theorem allFrames_above (m : Machine) (outer : List (Frame Variable)) :
    (m.above outer).allFrames = m.allFrames ++ outer :=
  (List.append_assoc ..).symm

theorem stop_above (m : Machine) (outer : List (Frame Variable)) : (m.above outer).stop = m.stop := rfl

theorem own_above (framed : m.frames ≠ []) (outer : List (Frame Variable)) : (m.above outer).own = m.own := by
  obtain ⟨_ | _, _⟩ := m
  · exact absurd rfl framed
  · rfl

theorem modifyFrame_above (framed : m.frames ≠ []) (g : Frame Variable → Frame Variable) :
    (m.above outer).modifyFrame g = (m.modifyFrame g).above outer := by
  obtain ⟨_ | _, _⟩ := m
  · exact absurd rfl framed
  · rfl

theorem enter?_above (m : Machine) (outer : List (Frame Variable)) (node : NodeId) :
    (m.above outer).enter? node = (m.enter? node).map (·.above outer) := by
  unfold enter? above
  rcases m.deeper with _ | ⟨f, rest⟩
  · rfl
  · by_cases hn : f.node = node <;> by_cases hl : f.live <;> simp [hn, hl]

theorem placeCallee?_above (m : Machine) (outer : List (Frame Variable)) (node : NodeId) (params : List Variable) :
    (m.above outer).placeCallee? node params = (m.placeCallee? node params).map (·.above outer) := by
  unfold placeCallee? above
  rcases m.deeper with _ | ⟨f, rest⟩
  · rfl
  · by_cases hn : f.node = node <;> by_cases hl : f.live <;> simp [hn, hl]

theorem calls_of_frames (call : ∃ f ∈ m.frames, f.call = true) : ∃ f ∈ m.allFrames, f.call = true :=
  call.imp fun _ hf => ⟨List.mem_append_right _ hf.1, hf.2⟩

theorem calls_of_tail (call : ∃ f ∈ m.frames.tail, f.call = true) : ∃ f ∈ m.allFrames, f.call = true :=
  calls_of_frames (call.imp fun _ hf => ⟨List.mem_of_mem_tail hf.1, hf.2⟩)

theorem findVar?_above (call : ∃ f ∈ m.allFrames, f.call = true) : (m.above outer).findVar? id = m.findVar? id := by
  unfold findVar?
  rw [allFrames_above, Frame.findVar?_append call]

theorem setVar_above (call : ∃ f ∈ m.allFrames, f.call = true) :
    (m.above outer).setVar id v = (m.setVar id v).above outer := by
  have length : (Frame.setVar id v m.allFrames).length = m.allFrames.length := by
    simpa using congrArg List.length (Frame.map_bare_setVar id v m.allFrames)
  have fit : m.deeper.length ≤ (Frame.setVar id v m.allFrames).length := by
    rw [length]
    simp [allFrames]
  unfold setVar
  rw [allFrames_above, Frame.setVar_append call]
  unfold above
  simp only [List.take_append_of_le_length fit, List.drop_append_of_le_length fit]

theorem declare_above (framed : m.frames ≠ []) (scope : ∃ f ∈ m.frames.tail, f.scope = true) :
    (m.above outer).declare v = (m.declare v).above outer := by
  obtain ⟨_ | ⟨f, fs⟩, _⟩ := m
  · exact absurd rfl framed
  · exact congrArg (fun gs : List (Frame Variable) => { above _ outer with frames := f :: gs })
      (Frame.declareVar_append scope)

theorem reply_above (framed : m.frames ≠ []) (f : NativeFn) (phase : CallPhase) :
    (m.above outer).reply f phase = m.reply f phase := by
  unfold reply
  rw [own_above framed]
  rfl

theorem record_above (framed : m.frames ≠ []) (id : NativeId) (phase : CallPhase) (r : NativeReply) :
    (m.above outer).record id phase r = (m.record id phase r).above outer := by
  unfold record
  rw [own_above framed, modifyFrame_above framed]
  rfl

end Machine

namespace Exec

variable {α β : Type} {m : Machine} {outer : List (Frame Variable)} {P : Span → Prop} {span : Span}

/-- A computation does the same on a machine with more frames further out. -/
def Lifts (outer : List (Frame Variable)) (c : Exec α) (m : Machine) : Prop :=
  c (m.above outer) = ((c m).1, (c m).2.above outer)

namespace Lifts

theorem seq {c : Exec α} {f : α → Exec β} (first : Lifts outer c m)
    (second : ∀ a m', c m = (.ok a, m') → Lifts outer (f a) m') : Lifts outer (c >>= f) m := by
  unfold Lifts at first ⊢
  rw [bind_apply, bind_apply, first]
  rcases ended : c m with ⟨_ | a, m'⟩
  · rfl
  · exact second a m' ended

theorem modifyFrame (framed : m.frames ≠ []) (g : Frame Variable → Frame Variable) :
    Lifts outer (modify (·.modifyFrame g)) m :=
  congrArg (Prod.mk _) (Machine.modifyFrame_above framed g)

theorem goOn {c : Exec Unit} (lifts : Lifts outer c m) : Lifts outer (goOn c) m := lifts.seq fun _ _ _ => rfl

theorem finish {c : Exec Variable} (lifts : Lifts outer c m) : Lifts outer (finish c) m :=
  lifts.seq fun _ _ _ => rfl

theorem settle {c : Exec α} (lifts : Lifts outer c m) : Lifts outer (settle c) m := by
  unfold Lifts at lifts ⊢
  unfold Exec.settle
  rw [lifts]
  rcases c m with ⟨(_ | _ | _ | _ | _) | _, _⟩ <;> rfl

theorem pass (framed : m.frames ≠ []) (span : Span) (state : Nat) (index : Int) :
    Lifts outer (Exec.goOn do spend span; setPosition state index) m := by
  have spends : Lifts outer (spend span) m := by
    unfold Lifts
    rw [spend_apply, spend_apply]
    change (if m.stop = true then _ else if m.budget = 0 then _ else _) = _
    split
    · rfl
    · split <;> rfl
  refine goOn (spends.seq fun _ m' spent => modifyFrame ?_ _)
  have around := (Machine.Inside.lasts 0).spends span m
  rw [spent] at around
  exact (around.own_kind framed).1

end Lifts

theorem Plain.lifts {c : Exec α} (h : Plain (fun _ => True) c) (closed : Frame.Sealed m.frames.tail) :
    Lifts outer c m := by
  induction h generalizing m with
  | seq first _ ih ih' =>
    refine (ih closed).seq fun a m' ended => ih' a m m' ended (closed.of_bare ?_)
    have inside := first.inside m
    rw [ended] at inside
    exact inside.outer
  | own => exact congrArg (fun f => (Except.ok f, m.above outer)) (Machine.own_above closed.framed outer)
  | findVar id =>
    have found : (m.above outer).findVar? id = m.findVar? id :=
      Machine.findVar?_above (Machine.calls_of_tail closed.call)
    exact congrArg (fun v => (Except.ok v, m.above outer)) found
  | setFrame g => exact .modifyFrame closed.framed g
  | setVar id v _ => exact congrArg (Prod.mk _) (Machine.setVar_above (Machine.calls_of_tail closed.call))
  | declareVar v => exact congrArg (Prod.mk _) (Machine.declare_above closed.framed closed.scope)
  | _ => rfl

theorem lifts_leaf (i : Instr) (closed : Frame.Sealed m.frames) : Lifts outer (leaf i) m := by
  have reads (span : Span) (id : VarId) : Lifts outer (readInit span (.var id)) m := by
    have found : (m.above outer).read? (.var id) = m.read? (.var id) :=
      Machine.findVar?_above (Machine.calls_of_frames closed.call)
    have read : Lifts outer (read span (.var id)) m := by
      unfold Lifts
      rw [read_apply, read_apply, found]
      cases m.read? (.var id) <;> rfl
    refine read.seq fun v m' _ => ?_
    split <;> rfl
  unfold leaf
  cases i.form with
  | load place => exact reads _ _
  | ret value => cases value <;> rfl
  | _ => rfl

theorem lifts_placeCallee (span : Span) (node : NodeId) (params : List Variable) :
    Lifts outer (placeCallee span node params) m := by
  unfold Lifts placeCallee
  rw [Machine.placeCallee?_above]
  cases m.placeCallee? node params <;> rfl

theorem lifts_enterCallee (span : Span) (f : Function) (room : Nat) (closed : Frame.Sealed m.frames.tail) :
    Lifts outer (enterCallee span f room) m := by
  have same {n : Machine} (inside : m.Inside n) : Frame.Sealed n.frames.tail := closed.of_bare inside.outer
  refine (Plain.operands.lifts closed).seq fun values m₁ h₁ => ?_
  cases h₁
  refine (Lifts.modifyFrame closed.framed _).seq fun _ m₂ h₂ => ?_
  cases h₂
  have cleared : m.Inside (m.modifyFrame ({ · with operands := [] })) := .modifyFrame m fun _ => rfl
  refine ((Plain.checkCrash trivial _ _).lifts (same cleared)).seq fun params m₃ h₃ => ?_
  obtain ⟨_, rfl⟩ := ok_of_checkCrash h₃
  split
  · rfl
  · refine (lifts_placeCallee ..).seq fun _ m₄ h₄ => .modifyFrame ?_ _
    have placed := (Machine.Inside.lasts 1).placeCallee Nat.one_pos span f.body.id params (m.modifyFrame ({ · with operands := [] }))
    rw [h₄] at placed
    exact (same (cleared.trans placed)).framed

theorem lifts_answered (span : Span) (ret : Ty) (outcome : NativeOutcome) (closed : Frame.Sealed m.frames.tail) :
    Lifts outer (answered span ret outcome) m := by
  cases outcome with
  | done v => exact (Plain.convert trivial v ret).lifts closed
  | suspend =>
    refine (Plain.own.lifts closed).seq fun own m' ended => ?_
    cases ended
    have position : Lifts outer (setPosition 2 m.own.index) m := .modifyFrame closed.framed _
    exact position.seq fun _ _ _ => rfl
  | fault _ | crashed _ => rfl

theorem lifts_callNative (span : Span) (id : NativeId) (f : NativeFn) (ret : Ty)
    (closed : Frame.Sealed m.frames.tail) : Lifts outer (callNative span id f ret) m := by
  have framed := closed.framed
  unfold Lifts
  rw [callNative_apply, callNative_apply, Machine.own_above framed, Machine.stop_above]
  dsimp only
  rw [Machine.reply_above framed, Machine.record_above framed]
  split
  · rfl
  · exact lifts_answered span ret _ (closed.of_bare (inside_record ..).outer)

end Exec

open Exec

variable {p : Program} {depth room : Nat} {root i c : Instr} {m m' m₀ n inside : Machine}
  {outer : List (Frame Variable)}

/-- The body of a function, or an instruction in one, is to be executed: the frame of the body is the first one
that was left behind, or is among the frames. -/
inductive Machine.Founded (i : Instr) (m : Machine) : Prop
  | part (closed : Frame.Sealed m.frames)
  | body {statements : List Instr} {f : Frame Variable} {rest : List (Frame Variable)}
      (form : i.form = .block statements) (frames : m.frames = []) (left : m.deeper = f :: rest)
      (node : f.node = i.id) (call : f.call = true)

/-- The same in the frame of the instruction. -/
inductive Machine.Held (i : Instr) (m : Machine) : Prop
  | part (closed : Frame.Sealed m.frames.tail)
  | body {statements : List Instr} {f : Frame Variable} (form : i.form = .block statements) (frames : m.frames = [f])
      (call : f.call = true)

namespace Machine

theorem Founded.enter (founded : m.Founded i) (entered : m.enter? i.id = some inside) : inside.Held i := by
  cases founded with
  | part closed =>
    obtain ⟨f, deeper, _, _, rfl⟩ := enter?_frames entered
    exact .part closed
  | body form frames left node call =>
    unfold enter? at entered
    rw [left] at entered
    dsimp only at entered
    rw [if_pos node] at entered
    split at entered
    · cases entered
      exact .body form (by rw [frames]) call
    · cases entered

namespace Held

theorem framed (held : m.Held i) : m.frames ≠ [] := by
  cases held with
  | part closed => exact closed.framed
  | body form frames call => rw [frames]; exact List.cons_ne_nil _ _

theorem keep (held : m.Held i) (kept : m.Inside n) : n.Held i := by
  cases held with
  | part closed => exact .part (closed.of_bare kept.outer)
  | @body _ f form frames call =>
    have own := kept.own
    have outer := kept.outer
    rw [frames] at own outer
    rcases hn : n.frames with _ | ⟨g, gs⟩
    · rw [hn] at own
      cases own
    · rw [hn] at own outer
      have same : g.kind = f.kind := Option.some.inj own
      have alone : gs = [] := List.map_eq_nil_iff.1 outer
      subst alone
      exact .body form hn ((congrArg (fun k => k.2.1) same).trans call)

theorem calls (held : m.Held i) : ∃ f ∈ m.allFrames, f.call = true := by
  cases held with
  | part closed => exact calls_of_tail closed.call
  | @body _ f form frames call => exact calls_of_frames ⟨f, by rw [frames]; exact List.mem_cons_self, call⟩

end Held

theorem Founded.of_leaf (founded : m.Founded i) (whole : i.isLeaf = true) : Frame.Sealed m.frames := by
  cases founded with
  | part closed => exact closed
  | body form frames left node call =>
    unfold Instr.isLeaf at whole
    rw [form] at whole
    cases whole

theorem Founded.calls (founded : m.Founded i) : ∃ f ∈ m.allFrames, f.call = true := by
  cases founded with
  | part closed => exact calls_of_frames closed.call
  | @body _ f rest form frames left node call =>
    exact ⟨f, List.mem_append_left _ (List.mem_reverse.2 (left ▸ List.mem_cons_self)), call⟩

end Machine

/-- What a body makes of itself: it opens its scope, or passes or executes a statement in it, or is finished. -/
theorem Instr.move_block {statements : List Instr} (form : i.form = .block statements) (p : Program)
    (f : Frame Variable) :
    i.move p f = .act (goOn openScope) ∨ i.move p f = .act (finish void) ∨
      (∃ span state index, i.move p f = .pass span state index) ∨
      f.scope = true ∧ ∃ s, i.move p f = .eval s fun _ => goOn (nextIndex 0) := by
  unfold Instr.move
  rw [form]
  by_cases scope : f.scope = true
  · rw [if_neg (by simp [scope])]
    dsimp only
    unfold Move.ofBlock
    split
    · exact .inr (.inl rfl)
    · split
      · exact .inr (.inr (.inl ⟨_, _, _, rfl⟩))
      · exact .inr (.inr (.inr ⟨scope, _, rfl⟩))
  · exact .inl (if_pos (by simp [scope, Form.isScope]))

theorem Machine.Held.run {follow : Except Interrupt Variable → Exec (Option Variable)} (held : m.Held i)
    (move : i.move p m.own = .run c follow) : Frame.Sealed m.frames := by
  cases held with
  | part closed => exact closed.imp fun _ hf => ⟨List.mem_of_mem_tail hf.1, hf.2⟩
  | @body _ f form frames call =>
    have own : m.own = f := by unfold Machine.own; rw [frames]; rfl
    rcases i.move_block form p m.own with moves | moves | ⟨_, _, _, moves⟩ | ⟨scope, _⟩
    · cases move.symm.trans moves
    · cases move.symm.trans moves
    · cases move.symm.trans moves
    · exact ⟨f, by rw [frames]; exact List.mem_cons_self, call, own ▸ scope⟩

section Lifting

variable (deeper : ∀ c m, Frame.Sealed m.frames → Lifts outer (exec p room c) m)

include deeper

theorem lifts_run {follow : Except Interrupt Variable → Exec (Option Variable)} (held : m.Held i)
    (move : i.move p m.own = .run c follow)
    (follows : Lifts outer (follow (exec p room c m).1) (exec p room c m).2) :
    Lifts outer (turn (exec p room) p room i) m := by
  have move' : i.move p (m.above outer).own = .run c follow := by
    rw [Machine.own_above held.framed]
    exact move
  unfold Lifts
  rw [turn_run move, turn_run move', deeper c m (held.run move)]
  exact follows

theorem lifts_turn (held : m.Held i) : Lifts outer (turn (exec p room) p room i) m := by
  have around (c : Instr) : m.Around (exec p room c m).2 := (executes_exec p room c m).around
  have moved {d : Exec (Option Variable)} (turned : turn (exec p room) p room i m = d m)
      (turned' : turn (exec p room) p room i (m.above outer) = d (m.above outer)) (lifts : Lifts outer d m) :
      Lifts outer (turn (exec p room) p room i) m := by
    unfold Lifts
    rw [turned, turned']
    exact lifts
  -- The move is the same, since it is made of the instruction's own frame alone.
  have step := turn_apply (exec p room) p room i m
  have step' := turn_apply (exec p room) p room i (m.above outer)
  rw [Machine.own_above held.framed] at step'
  cases held with
  | part closed =>
    have plain := i.move_isPlain p m.own
    cases move : i.move p m.own with
    | run c follow =>
      rw [move] at plain
      refine lifts_run deeper (.part closed) move ?_
      have kept := closed.of_bare (around c).inside.outer
      generalize exec p room c m = r at kept ⊢
      obtain ⟨o, m'⟩ := r
      by_cases ho : o = .error .suspended
      · rw [ho, plain.1]
        rfl
      · exact (plain.2 o ho fun _ _ _ _ => trivial).lifts kept
    | pass span state index =>
      rw [move] at step step'
      exact moved step step' (.pass closed.framed ..)
    | enter f =>
      rw [move] at step step'
      exact moved step step' (.goOn (lifts_enterCallee _ _ _ closed))
    | invoke id f ret =>
      rw [move] at step step'
      exact moved step step' (.finish (lifts_callNative _ _ _ _ closed))
    | act action =>
      rw [move] at plain step step'
      exact moved step step' (Plain.lifts plain closed)
  | @body _ f form frames call =>
    -- The body itself has no frame around it yet that is sealed, but what it does needs none.
    have held : m.Held i := .body form frames call
    have framed := held.framed
    rcases i.move_block form p m.own with move | move | ⟨span, state, index, move⟩ | ⟨_, s, move⟩
    · rw [move] at step step'
      exact moved step step' (.goOn (.modifyFrame framed _))
    · rw [move] at step step'
      exact moved step step' rfl
    · rw [move] at step step'
      exact moved step step' (.pass framed ..)
    · refine lifts_run deeper held move ?_
      have kept := (around s).frames_ne_nil framed
      generalize exec p room s m = r at kept ⊢
      obtain ⟨_ | v, m'⟩ := r
      · rfl
      · exact .goOn (.modifyFrame kept _)

theorem lifts_turns (held : m.Held i) (fuel : Nat) : Lifts outer (turns (exec p room) p room i fuel) m := by
  induction fuel generalizing m with
  | zero => rfl
  | succ fuel ih =>
    refine (lifts_turn deeper held).seq fun o m' turned => ?_
    cases o with
    | some v => rfl
    | none =>
      have turn : Turn (Executes p room) p room i m (.ok none, m') := Turn.executes_iff.2 turned
      exact ih (held.keep (turn.inside fun _ _ _ hr => hr.around))

end Lifting

theorem inside_turns (fuel : Nat) (m : Machine) : m.Inside (turns (exec p room) p room i fuel m).2 := by
  induction fuel generalizing m with
  | zero => exact .refl m
  | succ fuel ih =>
    refine keep_seq (K := Machine.Inside) .trans (fun m => ?_) (fun o m m' _ n => ?_) m
    · exact (Turn.executes_iff.2 rfl).inside fun _ _ _ hr => hr.around
    · cases o with
      | some v => exact .refl n
      | none => exact ih n

theorem leaveFrame_above {α : Type} (framed : m.frames ≠ []) (o : Except Interrupt α) :
    leaveFrame (o, m.above outer) = ((leaveFrame (o, m)).1, (leaveFrame (o, m)).2.above outer) := by
  have tail : (m.above outer).frames.tail = m.frames.tail ++ outer := by
    unfold Machine.above
    exact List.tail_append_of_ne_nil framed
  by_cases ho : o = .error .suspended
  · subst ho
    unfold leaveFrame
    dsimp only
    unfold Machine.suspend
    rw [tail, Machine.own_above framed]
    rfl
  · rw [leaveFrame_of_running ho, leaveFrame_of_running ho]
    unfold Machine.leave
    rw [tail]
    rfl

theorem lifts_exec (founded : m.Founded i) : Lifts outer (exec p room i) m := by
  induction room generalizing i m with
  | zero =>
    unfold exec
    split
    case isTrue whole => exact .settle (lifts_leaf i (founded.of_leaf whole))
    case isFalse => exact .settle rfl
  | succ room ih =>
    unfold exec
    split
    case isTrue whole => exact .settle (lifts_leaf i (founded.of_leaf whole))
    case isFalse =>
      unfold Lifts inFrame
      rw [Machine.enter?_above]
      cases entered : m.enter? i.id with
      | none => exact Lifts.settle (c := faultAt i.span .notRestored) rfl
      | some inside =>
        have held := founded.enter entered
        have runs : Lifts outer (form (exec p room) p room i) inside :=
          lifts_turns (fun c m closed => ih (.part closed)) held _
        have kept : (form (exec p room) p room i inside).2.frames ≠ [] :=
          ((inside_turns ..).own_kind held.framed).1
        change leaveFrame (form (exec p room) p room i (inside.above outer)) = _
        rw [runs]
        exact leaveFrame_above kept _

/-!
## While the body of a function executes
-/

theorem Machine.Held.turn (held : m.Held i) (turned : turn (exec p room) p room i m = (.ok none, m')) : m'.Held i :=
  held.keep ((Turn.executes_iff.2 turned).inside fun _ _ _ hr => hr.around)

theorem turn_above (held : m.Held i) :
    turn (exec p room) p room i (m.above outer) = (.ok none, m') ↔
      ∃ n, m' = n.above outer ∧ turn (exec p room) p room i m = (.ok none, n) := by
  rw [lifts_turn (fun c m closed => lifts_exec (.part closed)) held]
  generalize turn (exec p room) p room i m = r
  obtain ⟨o, n⟩ := r
  constructor
  · intro same
    cases same
    exact ⟨n, rfl, rfl⟩
  · rintro ⟨n', rfl, same⟩
    cases same
    rfl

theorem Passes.above (held : m.Held i) (h : Passes p room i m n) :
    Passes p room i (m.above outer) (n.above outer) := by
  induction h with
  | here => exact .here
  | next first _ ih => exact .next ((turn_above held).2 ⟨_, rfl, first⟩) (ih (held.turn first))

theorem Passes.of_above (held : m.Held i) (h : Passes p room i (m.above outer) m') :
    ∃ n, m' = n.above outer ∧ Passes p room i m n := by
  generalize start : m.above outer = k at h
  induction h generalizing m with
  | here => exact ⟨m, start.symm, .here⟩
  | next first _ ih =>
    subst start
    obtain ⟨m₁, rfl, turned⟩ := (turn_above held).1 first
    obtain ⟨n, rfl, rest⟩ := ih (held.turn turned) rfl
    exact ⟨n, rfl, .next turned rest⟩

theorem Machine.Founded.above (founded : m.Founded i) (outer : List (Frame Variable))
    (entered : m.enter? i.id = some inside) (passes : Passes p room i inside n) :
    n.Held i ∧ (m.above outer).enter? i.id = some (inside.above outer) ∧
      Passes p room i (inside.above outer) (n.above outer) := by
  have held := founded.enter entered
  refine ⟨held.keep passes.inside, ?_, passes.above held⟩
  rw [enter?_above, entered]
  rfl

theorem Visits.above (outer : List (Frame Variable)) (founded : m₀.Founded root)
    (h : Visits p depth root m₀ room i n) :
    n.Founded i ∧ Visits p depth root (m₀.above outer) room i (n.above outer) := by
  induction h with
  | root => exact ⟨founded, .root⟩
  | part _ entered passes move ih =>
    obtain ⟨founded, visits⟩ := ih
    obtain ⟨held, entered', passes'⟩ := founded.above outer entered passes
    have closed := held.run move
    rw [← Machine.own_above held.framed outer] at move
    exact ⟨.part closed, .part visits entered' passes' move⟩

theorem Handles.above (outer : List (Frame Variable)) (founded : m₀.Founded root) (h : Handles p depth root m₀ i n) :
    n.Held i ∧ Handles p depth root (m₀.above outer) i (n.above outer) := by
  cases h with
  | turn visits entered passes =>
    obtain ⟨founded, visits⟩ := visits.above outer founded
    obtain ⟨held, entered', passes'⟩ := founded.above outer entered passes
    exact ⟨held, .turn visits entered' passes'⟩
  | @follow room _ c _ _ m' _ v _ visits entered passes move ended =>
    obtain ⟨founded, visits⟩ := visits.above outer founded
    obtain ⟨held, entered', passes'⟩ := founded.above outer entered passes
    have around := (executes_exec p room c m').around
    have lifted : exec p room c (m'.above outer) = _ := lifts_exec (.part (held.run move))
    rw [ended] at around lifted
    rw [← Machine.own_above held.framed outer] at move
    exact ⟨held.keep around.inside, .follow visits entered' passes' move lifted⟩

theorem Machine.Founded.of_above (founded : n.Founded i) (entered : (n.above outer).enter? i.id = some inside)
    (passes : Passes p room i inside m') :
    ∃ inside' n', m' = n'.above outer ∧ n'.Held i ∧ n.enter? i.id = some inside' ∧ Passes p room i inside' n' := by
  rw [Machine.enter?_above] at entered
  obtain ⟨inside', entered', rfl⟩ := Option.map_eq_some_iff.1 entered
  have held := founded.enter entered'
  obtain ⟨n', rfl, passes'⟩ := passes.of_above held
  exact ⟨inside', n', rfl, held.keep passes'.inside, entered', passes'⟩

theorem Visits.of_above (founded : m₀.Founded root) (h : Visits p depth root (m₀.above outer) room i m) :
    ∃ n, m = n.above outer ∧ n.Founded i ∧ Visits p depth root m₀ room i n := by
  induction h with
  | root => exact ⟨m₀, rfl, founded, .root⟩
  | part _ entered passes move ih =>
    obtain ⟨n, rfl, founded, visits⟩ := ih
    obtain ⟨inside, n', rfl, held, entered', passes'⟩ := founded.of_above entered passes
    rw [Machine.own_above held.framed] at move
    exact ⟨n', rfl, .part (held.run move), .part visits entered' passes' move⟩

theorem Handles.of_above (founded : m₀.Founded root) (h : Handles p depth root (m₀.above outer) i m) :
    ∃ n, m = n.above outer ∧ n.Held i ∧ Handles p depth root m₀ i n := by
  cases h with
  | turn visits entered passes =>
    obtain ⟨n, rfl, founded, visits⟩ := visits.of_above founded
    obtain ⟨inside, n', rfl, held, entered', passes'⟩ := founded.of_above entered passes
    exact ⟨n', rfl, held, .turn visits entered' passes'⟩
  | @follow room _ c _ _ _ _ v _ visits entered passes move ended =>
    obtain ⟨n, rfl, founded, visits⟩ := visits.of_above founded
    obtain ⟨inside, n', rfl, held, entered', passes'⟩ := founded.of_above entered passes
    rw [Machine.own_above held.framed] at move
    have around := (executes_exec p room c n').around
    rw [lifts_exec (.part (held.run move))] at ended
    generalize same : exec p room c n' = r at ended around
    obtain ⟨o, n''⟩ := r
    cases ended
    exact ⟨n'', rfl, held.keep around.inside, .follow visits entered' passes' move same⟩

/-!
## Out of sight
-/

/-- The machine is another one above frames further out, and finds and sets the same variables as without them. -/
structure Machine.Secluded (outer : List (Frame Variable)) (inner m : Machine) : Prop where
  above : m = inner.above outer
  finds : ∀ id, m.findVar? id = inner.findVar? id
  sets : ∀ id v, m.setVar id v = (inner.setVar id v).above outer

/-- What an instruction declares is declared without the frames further out too, in a scope around it. -/
def Instr.DeclaresWithin (outer : List (Frame Variable)) (inner : Machine) (i : Instr) : Prop :=
  ∀ var name ty dims init, i.form = .declare var name ty dims init →
    (∃ f ∈ inner.frames.tail, f.scope = true) ∧ ∀ v, (inner.above outer).declare v = (inner.declare v).above outer

theorem Machine.secluded (call : ∃ f ∈ m.allFrames, f.call = true) (outer : List (Frame Variable)) :
    Secluded outer m (m.above outer) :=
  ⟨rfl, fun _ => findVar?_above call, fun _ _ => setVar_above call⟩

theorem Machine.Held.declares (held : m.Held i) (outer : List (Frame Variable)) : i.DeclaresWithin outer m := by
  intro var name ty dims init form
  cases held with
  | part closed => exact ⟨closed.scope, fun _ => declare_above closed.framed closed.scope⟩
  | body form' => cases form.symm.trans form'

end Tickwise
