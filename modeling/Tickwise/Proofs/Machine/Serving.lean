import Tickwise.Proofs.Machine.Depth
import Tickwise.Proofs.Machine.Paused
set_option autoImplicit false

/-!
# Serving native calls

What an execution adds to the journal: it goes on with the call that is pending, and starts others one after
the other. `Q` says of an invocation and the instructions that are executing, innermost first, that it is
made then.
-/
namespace Tickwise

open Exec

variable {Q : List NodeId → Invocation → Prop} {p : Program} {room : Nat} {i : Instr} {m m' : Machine}
  {call call' : Calling} {es : List Invocation}

theorem Exec.IsLocal.journal {α : Type} {c : Exec α} (h : IsLocal c) (m : Machine) :
    (c m).2.journal = m.journal := by
  rw [← h.under_self m]
  rfl

theorem Machine.enter?_same {inside : Machine} {node : NodeId} (hm : m.enter? node = some inside) :
    inside.journal = m.journal ∧ inside.stop = m.stop := by
  obtain ⟨f, deeper, _, _, rfl⟩ := m.enter?_frames hm
  exact ⟨rfl, rfl⟩

theorem Exec.journal_leaveFrame (r : Result Variable) : (leaveFrame r).2.journal = r.2.journal := by
  unfold leaveFrame
  split <;> rfl

def Machine.site (m : Machine) : List NodeId := m.allFrames.map Frame.node

theorem Machine.site_suspend (hm : m.frames ≠ []) : m.suspend.site = m.site := by
  obtain ⟨_ | ⟨own, frames⟩, _⟩ := m
  · exact absurd rfl hm
  · simp [site, allFrames, suspend, Machine.own]

structure Machine.Serves (Q : List NodeId → Invocation → Prop) (m m' : Machine) (call : Calling)
    (es : List Invocation) (call' : Calling) : Prop where
  journal : m'.journal.invocations = es ++ m.journal.invocations
  admits : call.Serves m.stop es call'
  made : ∀ e ∈ es, ∃ site, Q site e

namespace Machine.Serves

variable {m m' m'' : Machine} {call call' call'' : Calling} {es es' : List Invocation}

theorem of_journal (same : m'.journal = m.journal) : m.Serves Q m' call [] call :=
  ⟨by rw [same, List.nil_append], .none, nofun⟩

theorem trans (first : m.Serves Q m' call es call') (second : m'.Serves Q m'' call' es' call'')
    (stop : m'.stop = m.stop) : m.Serves Q m'' call (es' ++ es) call'' where
  journal := by rw [second.journal, first.journal, List.append_assoc]
  admits := first.admits.append (stop ▸ second.admits)
  made := List.forall_mem_append.2 ⟨second.made, first.made⟩

end Machine.Serves

/-- What an outcome leaves of native calls. A suspended instruction is paused with these frames, and a pending
native was invoked in them. After a call was cancelled the outcome is a stop. -/
structure Calling.Ends {α : Type} (Q : List NodeId → Invocation → Prop) (p : Program) (i : Instr) (es : List Invocation)
    (call : Calling) (frames : List (Frame Variable)) (r : Result α) : Prop where
  paused : r.1 = .error .suspended → Paused p call i frames
  last : r.1 = .error .suspended → call ≠ .idle → ∃ e ∈ es.head?, Q r.2.site e
  settled : r.1 ≠ .error .suspended →
    call = .idle ∨ call = .over ∧ ∃ span, r.1 = .error (.fault ⟨.stopped, span⟩)

theorem Calling.Ends.idle {α : Type} {frames : List (Frame Variable)} {r : Result α}
    (running : r.1 ≠ .error .suspended) : Calling.idle.Ends Q p i es frames r :=
  ⟨fun suspended => absurd suspended running, fun suspended => absurd suspended running, fun _ => .inl rfl⟩

def Machine.invocation (m : Machine) (id : NativeId) (phase : CallPhase) (r : NativeReply) : Invocation :=
  ⟨id, m.own.operands, m.heap, phase, Int32.ofInt m.own.index, r.state, r.outcome⟩

def Machine.invoked (m : Machine) (id : NativeId) (g : NativeFn) : Invocation :=
  let phase := callPhase m.own.state m.stop
  m.invocation id phase (m.reply g phase)

/-- What an instruction does to native calls until it is suspended or finished: it goes on with the pending
one, if there is one, and starts others. -/
def Serving {α : Type} (Q : List NodeId → Invocation → Prop) (p : Program) (i : Instr) (m : Machine) (call : Calling)
    (frames : List (Frame Variable)) (r : Result α) : Prop :=
  ∃ es call', m.Serves Q r.2 call es call' ∧ call'.Ends Q p i es frames r

theorem Serving.of_journal {α : Type} {frames : List (Frame Variable)} {r : Result α}
    (same : r.2.journal = m.journal) (running : r.1 ≠ .error .suspended) :
    Serving Q p i m .idle frames r :=
  ⟨[], .idle, .of_journal same, .idle running⟩

/-- What follows the answer of a native: the call is pending if it asked to be invoked again. -/
theorem Exec.ends_answered {id : NativeId} {g : NativeFn} {ret : Ty} (hm : m.frames ≠ [])
    (alone : m.deeper = []) (fits : Fits p i (m.own :: m.deeper)) (move : i.move p m.own = .invoke id g ret)
    {phase : CallPhase} {r : NativeReply} (made : Q m.site (m.invocation id phase r)) {r' : Result (Option Variable)}
    (answer : finish (answered i.span ret r.outcome) (m.record id phase r) = r') :
    r'.2.journal = (m.record id phase r).journal ∧
      (m.invocation id phase r).leadsTo.Ends Q p i [m.invocation id phase r] (r'.2.own :: r'.2.deeper) r' := by
  obtain ⟨outcome, state, heap, reports⟩ := r
  cases outcome with
  | done v =>
    have plain : Plain (fun _ => True) (finish (convert i.span v ret)) := .finish (.convert trivial v ret)
    subst answer
    exact ⟨plain.isLocal.journal _, .idle (plain.ne_suspended _)⟩
  | suspend =>
    obtain ⟨_, known, args, ty, form⟩ := Instr.invokes_of_move fits.2.2.1 move
    obtain ⟨_ | ⟨own, frames⟩, deeper, _⟩ := m
    · exact absurd rfl hm
    · change deeper = [] at alone
      subst answer alone
      refine ⟨rfl, fun _ => ?_, fun _ _ => ⟨_, rfl, made⟩, fun running => absurd rfl running⟩
      let waiting : Frame Variable := { own with state := 2, index := state.toInt }
      have again : i.move p waiting = .invoke id g ty :=
        (i.move_call form p waiting).trans (Move.ofCall_native nofun known)
      have paused := Paused.native again rfl
      change Paused p (.pending ⟨id, own.operands, Int32.ofInt state.toInt⟩) i [waiting] at paused
      rw [Int32.ofInt_toInt] at paused
      exact paused
  | fault _ | crashed _ =>
    subst answer
    exact ⟨rfl, .idle nofun⟩

theorem Exec.finish_callNative {span : Span} {id : NativeId} {g : NativeFn} {ret : Ty} {phase : CallPhase}
    (reason : callPhase m.own.state m.stop = phase) (going : phase ≠ .cancel) :
    finish (callNative span id g ret) m =
      finish (answered span ret (m.reply g phase).outcome) (m.record id phase (m.reply g phase)) := by
  unfold finish
  rw [bind_apply, callNative_apply, reason]
  dsimp only
  rw [if_neg going, bind_apply]

theorem Exec.finish_cancelled {id : NativeId} {g : NativeFn} (again : m.own.state = 2)
    (stop : m.stop = true) (span : Span) (ret : Ty) :
    finish (callNative span id g ret) m =
      (.error (.fault ⟨.stopped, span⟩), m.record id .cancel (m.reply g .cancel)) := by
  unfold finish
  rw [bind_apply, callNative_apply, again, stop]
  rfl

theorem Serving.invoke {id : NativeId} {g : NativeFn} {ret : Ty} (hm : m.frames ≠ [])
    (fits : Fits p i (m.own :: m.deeper)) (poised : Poised p call i (m.own :: m.deeper))
    (move : i.move p m.own = .invoke id g ret) (made : Q m.site (m.invoked id g)) {r : Result (Option Variable)}
    (calls : finish (callNative i.span id g ret) m = r) : Serving Q p i m call (r.2.own :: r.2.deeper) r := by
  have alone : m.deeper = [] := fits.eq_nil_of_atRest (by rw [(fits.agrees move nofun).1]; trivial)
  have going (phase : CallPhase) (reason : callPhase m.own.state m.stop = phase) (runs : phase ≠ .cancel)
      (admits : call.Admits m.stop (m.invocation id phase (m.reply g phase))
        (m.invocation id phase (m.reply g phase)).leadsTo) : Serving Q p i m call (r.2.own :: r.2.deeper) r := by
    rw [finish_callNative reason runs] at calls
    subst reason
    obtain ⟨journal, ends⟩ := ends_answered hm alone fits move made calls
    exact ⟨_, _, ⟨by rw [journal]; rfl, .single admits, List.forall_mem_singleton.2 ⟨_, made⟩⟩, ends⟩
  rcases poised.invokes move with ⟨rfl, first, index⟩ | ⟨rfl, again⟩
  · refine going .start (by rw [first]; rfl) nofun (.start rfl ?_)
    change Int32.ofInt m.own.index = 0
    rw [index]
    rfl
  · cases stop : m.stop with
    | false =>
      let e := m.invocation id .resume (m.reply g .resume)
      exact going .resume (by rw [again, stop]; rfl) nofun (.resume (e := e) stop rfl)
    | true =>
      let e := m.invocation id .cancel (m.reply g .cancel)
      have same : m.invoked id g = e := by
        unfold Machine.invoked
        rw [again, stop]
        rfl
      rw [finish_cancelled again stop] at calls
      subst calls
      rw [same] at made
      exact ⟨[e], .over, ⟨rfl, .single (.cancel (e := e) stop rfl), List.forall_mem_singleton.2 ⟨_, made⟩⟩,
        nofun, nofun, fun _ => .inr ⟨rfl, i.span, rfl⟩⟩

theorem Turn.serves {r : Result (Option Variable)} (h : Turn (Executes p room) p room i m r) (hm : m.frames ≠ [])
    (fits : Fits p i (m.own :: m.deeper)) (poised : Poised p call i (m.own :: m.deeper))
    (own : ∀ id g ret, i.move p m.own = .invoke id g ret → Q m.site (m.invoked id g))
    (below : ∀ c follow r, i.move p m.own = .run c follow → Executes p room c m r → Serving Q p c m call r.2.deeper r) :
    Serving Q p i m call (r.2.own :: r.2.deeper) r := by
  have plain := i.move_isPlain p m.own
  cases h with
  | @child c follow o m₁ move inner =>
    have fits' := fits.inner (fits.agrees move nofun)
    obtain ⟨es, call', serves, ends⟩ := below c follow _ move inner
    rw [move] at plain
    by_cases ho : o = .error .suspended
    · subst ho
      rw [plain.1]
      have move' : i.move p m₁.own = .run c follow := (Instr.move_congr inner.around.own).trans move
      rw [throw_apply]
      refine ⟨es, call', serves, fun _ => ?_, fun _ => ends.last rfl, fun running => absurd rfl running⟩
      exact .part move' ((inner.leaves fits').parts rfl) (ends.paused rfl)
    · have following := plain.2 o ho fun _ _ _ _ => trivial
      have running := following.ne_suspended m₁
      have serves' := serves.trans (.of_journal (following.isLocal.journal m₁)) inner.around.stop
      refine ⟨es, call', serves', fun suspended => absurd suspended running, fun suspended => absurd suspended running,
        fun _ => (ends.settled ho).imp_right fun ⟨closed, span, stopped⟩ => ⟨closed, span, ?_⟩⟩
      have passes := i.move_passesStop p m.own
      rw [move] at passes
      change o = _ at stopped
      rw [stopped, passes span]
      rfl
  | @pass span state index move =>
    have agrees := fits.agrees move nofun
    have alone : m.deeper = [] := fits.eq_nil_of_atRest (by rw [agrees]; trivial)
    obtain rfl := poised.idle (by simp [move]) (by simp [move])
    rw [pass_apply]
    split
    · exact .of_journal rfl nofun
    · split
      · refine ⟨[], .idle, .of_journal rfl, fun _ => ?_, fun _ pending => absurd rfl pending, fun _ => .inl rfl⟩
        rw [alone]
        exact .step move
      · exact .of_journal ((Plain.setPosition state index).isLocal.journal _) nofun
  | @enter f move =>
    obtain rfl := poised.idle (by simp [move]) (by simp [move])
    have entering : IsLocal (goOn (enterCallee i.span f room)) :=
      IsLocal.bind (isLocal_enterCallee _ _ _) fun _ => (Plain.pure none).isLocal
    exact .of_journal (entering.journal m) (goOn_ne_suspended (ne_suspended_enterCallee _ _ _) m)
  | @invoke id g ret move => exact .invoke hm fits poised move (own id g ret move) rfl
  | act move =>
    obtain rfl := poised.idle (by simp [move]) (by simp [move])
    rw [move] at plain
    exact .of_journal ((Plain.isLocal plain).journal m) (Plain.ne_suspended plain m)

theorem Calling.Ends.left {e : Interrupt} {frames : List (Frame Variable)}
    (ends : call.Ends Q p i es frames ((.error e, m) : Result (Option Variable))) :
    call.Ends Q p i es frames ((.error e, m) : Result Variable) := by
  have iff : (.error e : Except Interrupt Variable) = .error .suspended ↔
      (.error e : Except Interrupt (Option Variable)) = .error .suspended :=
    ⟨fun same => by cases same; rfl, fun same => by cases same; rfl⟩
  refine ⟨fun suspended => ends.paused (iff.1 suspended), fun suspended => ends.last (iff.1 suspended), fun running => ?_⟩
  refine (ends.settled (mt iff.2 running)).imp_right fun ⟨same, span, stopped⟩ => ⟨same, span, ?_⟩
  cases stopped
  rfl

theorem Calling.Ends.eq_idle {α : Type} {v : α} {frames : List (Frame Variable)}
    (ends : call.Ends Q p i es frames (.ok v, m)) : call = .idle :=
  (ends.settled nofun).resolve_right fun ⟨_, _, stopped⟩ => nomatch stopped

theorem Serving.left {e : Interrupt} {frames : List (Frame Variable)}
    (h : Serving Q p i m call frames ((.error e, m') : Result (Option Variable))) :
    Serving Q p i m call frames ((.error e, m') : Result Variable) := by
  obtain ⟨es, call', serves, ends⟩ := h
  exact ⟨es, call', serves, ends.left⟩

theorem Serving.trans {frames frames' : List (Frame Variable)} {r : Result Variable}
    (first : Serving Q p i m call frames ((.ok none, m') : Result (Option Variable)))
    (rest : Serving Q p i m' .idle frames' r) (stop : m'.stop = m.stop) : Serving Q p i m call frames' r := by
  obtain ⟨es, _, serves, ends⟩ := first
  obtain ⟨es', call', serves', ends'⟩ := rest
  cases ends.eq_idle
  refine ⟨es' ++ es, call', serves.trans serves' stop, ends'.paused, fun suspended pending => ?_, ends'.settled⟩
  obtain ⟨e, last, made⟩ := ends'.last suspended pending
  exact ⟨e, by rw [List.head?_append, Option.mem_def.1 last]; rfl, made⟩

end Tickwise
