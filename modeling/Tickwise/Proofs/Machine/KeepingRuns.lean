import Tickwise.Proofs.Machine.Adequacy
import Tickwise.Proofs.Machine.KeepingMoves
import Tickwise.Proofs.Typing.Visits
set_option autoImplicit false

/-!
# Executions that keep a discipline

If what is known of the machine before and while an instruction executes makes the discipline permit each
conversion and each answer of a native, then the execution keeps the discipline.
-/
namespace Tickwise

open Exec

namespace Discipline

/-- A native leaves storage as it is to be, and what it answers is admitted and may be converted. -/
structure Serves (A : Discipline) (h : Heap) (ret : Ty) (r : NativeReply) : Prop where
  onward : A.Onward h r.heap
  stored : A.Stored r.heap
  admits : ∀ v, r.outcome = .done v → A.Admits r.heap v
  converts : ∀ v, r.outcome = .done v → A.Converts ret v

/-- What is known before an instruction executes and in its frame, by how deep frames may still be nested, so that
the discipline permits what it does. -/
structure Guides (A : Discipline) (p : Program) (Before Amid : Nat → Instr → Machine → Prop) : Prop where
  literal : ∀ {room i m}, Before room i m → ∀ h v, i.form = .literal v → A.Admits h v
  enter : ∀ {room i m inside}, Before (room + 1) i m → m.enter? i.id = some inside → Amid room i inside
  next : ∀ {room i m m'}, Amid room i m → Turn (Executes p room) p room i m (.ok none, m') → Amid room i m'
  part : ∀ {room i m c follow}, Amid room i m → i.move p m.own = .run c follow → Before room c m
  literal' : ∀ {room i m}, Amid room i m → ∀ h v, i.form = .literal v → A.Admits h v
  allows : ∀ {room i m c follow o m'}, Amid room i m → i.move p m.own = .run c follow →
    Executes p room c m (o, m') → A.Holds m' → A.Allows i m.own o m'
  fills : ∀ {room i m}, Amid room i m → A.Fills i m.own
  enters : ∀ {room i m f}, Amid room i m → i.move p m.own = .enter f →
    ∀ q v, (q, v) ∈ f.params.zip m.own.operands → A.Converts q.ty v
  invokes : ∀ {room i m id f ret}, Amid room i m → A.Holds m → i.move p m.own = .invoke id f ret →
    A.Serves m.heap ret (m.reply f (callPhase m.own.state m.stop))

variable {A : Discipline} {p : Program} {Before Amid : Nat → Instr → Machine → Prop} {room depth : Nat}
  {i c root : Instr} {m m' m₀ : Machine} {h : Heap} {span : Span}

theorem admits_bindParams {params : List Parameter} {vs locals : List Variable} (hvs : ∀ v ∈ vs, A.Admits h v)
    (converts : ∀ q v, (q, v) ∈ params.zip vs → A.Converts q.ty v)
    (bound : bindParams h params vs = .ok locals) : ∀ v ∈ locals, A.Admits h v := by
  induction params generalizing vs locals with
  | nil =>
    cases bound
    nofun
  | cons q params ih =>
    cases vs with
    | nil =>
      cases bound
      nofun
    | cons v vs =>
      obtain ⟨w, assigned, bound⟩ := ok_of_bind_except bound
      obtain ⟨ws, rest, bound⟩ := ok_of_bind_except bound
      cases bound
      have first : A.Converts ((Slot.fresh q.ty : Variable).declaredAs q.name q.var).ty v :=
        converts q v List.mem_cons_self
      refine List.forall_mem_cons.2 ⟨admits_assign (hvs v List.mem_cons_self) first assigned, ?_⟩
      exact ih (fun w hw => hvs w (List.mem_cons_of_mem _ hw))
        (fun q w hw => converts q w (List.mem_cons_of_mem _ hw)) rest

theorem Holds.placeCallee? {node : NodeId} {params : List Variable} {n : Machine} (hm : A.Holds m)
    (hp : ∀ v ∈ params, A.Admits m.heap v) (placed : m.placeCallee? node params = some n) :
    n.heap = m.heap ∧ A.Holds n := by
  have fresh : A.HoldsFrame m.heap (Frame.ofCall node params) := ⟨hp, nofun⟩
  have deeper := hm.deeper
  unfold Machine.placeCallee? at placed
  split at placed
  · cases placed
    exact ⟨rfl, hm.heap, hm.frames, List.forall_mem_singleton.2 fresh⟩
  · next f rest beneath =>
    rw [beneath] at deeper
    split at placed
    · split at placed
      · cases placed
        obtain ⟨first, rest⟩ := List.forall_mem_cons.1 deeper
        exact ⟨rfl, hm.heap, hm.frames, List.forall_mem_cons.2 ⟨⟨hp, first.operands⟩, rest⟩⟩
      · cases placed
    · cases placed
      exact ⟨rfl, hm.heap, hm.frames, List.forall_mem_singleton.2 fresh⟩

theorem Holds.enter {inside : Machine} {node : NodeId} (hm : A.Holds m) (entered : m.enter? node = some inside) :
    inside.heap = m.heap ∧ A.Holds inside := by
  rcases Machine.enter?_cases entered with rfl | ⟨f, rest, beneath, _, _, rfl⟩
  · exact ⟨rfl, hm.heap, List.forall_mem_cons.2 ⟨⟨nofun, nofun⟩, hm.frames⟩, nofun⟩
  · have deeper := hm.deeper
    rw [beneath] at deeper
    obtain ⟨first, rest⟩ := List.forall_mem_cons.1 deeper
    exact ⟨rfl, hm.heap, List.forall_mem_cons.2 ⟨first, hm.frames⟩, rest⟩

namespace Keeps

theorem enterCallee {f : Function} (hm : A.Holds m)
    (converts : ∀ q v, (q, v) ∈ f.params.zip m.own.operands → A.Converts q.ty v) :
    A.Keeps (fun _ _ => True) m.heap (enterCallee span f room m) := by
  change A.Keeps (fun _ _ => True) m.heap ((do
    Exec.setOperands []
    let params ← Exec.checkCrash span (bindCrash? · f.params m.own.operands) (bindParams · f.params m.own.operands)
    if room = 0 then Exec.faultAt span .stackOverflow
    else
      Exec.placeCallee span f.body.id params
      Exec.setPosition 2 0) m)
  have cleared : A.Keeps (fun _ _ => True) m.heap (Exec.setOperands [] m) := setOperands hm nofun
  refine cleared.bind fun n _ set onward holds _ => checkCrash holds fun params bound => ?_
  refine ite (fun _ => faultAt holds span _) fun _ => ?_
  have admits := admits_bindParams (fun v hv => A.mono onward (hm.own.operands v hv)) converts bound
  have placed : A.Keeps (fun _ _ => True) n.heap (Exec.placeCallee span f.body.id params n) := by
    unfold Exec.placeCallee
    cases placed : n.placeCallee? f.body.id params with
    | none => exact faultAt holds span _
    | some n' =>
      obtain ⟨same, holds⟩ := holds.placeCallee? admits placed
      exact ⟨same ▸ A.refl _, holds, trivial⟩
  exact placed.bind fun n' _ _ _ holds _ => setPosition holds 2 0

theorem callNative {id : NativeId} {f : NativeFn} {ret : Ty} (hm : A.Holds m)
    (serves : A.Serves m.heap ret (m.reply f (callPhase m.own.state m.stop))) :
    A.Keeps A.Admits m.heap (callNative span id f ret m) := by
  rw [callNative_apply]
  dsimp only
  generalize callPhase m.own.state m.stop = phase at serves ⊢
  obtain ⟨onward, stored, admits, converts⟩ := serves
  generalize m.reply f phase = r at onward stored admits converts
  have moved := hm.modifyFrame (g := ({ · with index := r.state.toInt })) fun _ own => ⟨own.locals, own.operands⟩
  have recorded : A.Holds (m.record id phase r) := by
    have onward' : A.Onward (m.modifyFrame ({ · with index := r.state.toInt })).heap r.heap := by
      rw [m.heap_modifyFrame]
      exact onward
    obtain ⟨heap, frames, deeper⟩ := moved.withHeap onward' stored
    exact ⟨heap, frames, deeper⟩
  refine rebase (k := (m.record id phase r).heap) onward (ite (fun _ => faultAt recorded span _) fun _ => ?_)
  cases outcome : r.outcome with
  | done v => exact convert recorded (admits v outcome) (converts v outcome)
  | suspend =>
    exact (setPosition recorded 2 (m.record id phase r).own.index).bind fun _ _ _ _ holds _ =>
      throw (e := .suspended) holds trivial
  | fault code => exact faultAt recorded span _
  | crashed c => exact crash recorded c

theorem leaveFrame {Q : Heap → Variable → Prop} {r : Result Variable} (keeps : A.Keeps Q h r) :
    A.Keeps Q h (leaveFrame r) := by
  obtain ⟨onward, holds, ends⟩ := keeps
  obtain ⟨o, m⟩ := r
  have outer : ∀ f ∈ m.frames.tail, A.HoldsFrame m.heap f := fun f hf => holds.frames f (List.mem_of_mem_tail hf)
  by_cases ho : o = .error .suspended
  · subst ho
    exact ⟨onward, ⟨holds.heap, outer, List.forall_mem_cons.2 ⟨holds.own, holds.deeper⟩⟩, ends⟩
  · rw [leaveFrame_of_running ho]
    exact ⟨onward, ⟨holds.heap, outer, nofun⟩, ends⟩

theorem settle {Q : Heap → Variable → Prop} {c : Exec Variable} (keeps : A.Keeps Q h (c m)) :
    A.Keeps Q h (settle c m) := by
  by_cases running : (c m).1 = .error .suspended
  · unfold Exec.settle
    generalize c m = r at keeps running ⊢
    obtain ⟨o, m'⟩ := r
    subst running
    exact keeps
  · rw [settle_of_running running]
    obtain ⟨onward, holds, ends⟩ := keeps
    exact ⟨onward, ⟨holds.heap, holds.frames, nofun⟩, ends⟩

end Keeps

open Keeps

section Guided

variable (guides : A.Guides p Before Amid)

include guides

theorem Guides.turn {r : Result (Option Variable)}
    (deeper : ∀ c m r, Executes p room c m r → Before room c m → A.Holds m → A.Keeps A.Admits m.heap r)
    (amid : Amid room i m) (hm : A.Holds m) (h : Turn (Executes p room) p room i m r) : A.Keeps A.Maybe m.heap r := by
  have keeps := i.move_keeps p m.own (guides.literal' amid)
  cases h with
  | @child c follow o m' move inner =>
    rw [move] at keeps
    obtain ⟨onward, holds, ends⟩ := deeper c m _ inner (guides.part amid move) hm
    exact (keeps m' o holds ends (guides.allows amid move inner holds)).rebase onward
  | pass move => exact .goOn ((spend hm _).bind fun m' _ _ _ holds _ => setPosition holds _ _)
  | enter move => exact .goOn (enterCallee hm (guides.enters amid move))
  | invoke move => exact .finish (callNative hm (guides.invokes amid hm move))
  | act move =>
    rw [move] at keeps
    exact keeps m hm rfl (guides.fills amid)

theorem Guides.turns {r : Result Variable}
    (deeper : ∀ c m r, Executes p room c m r → Before room c m → A.Holds m → A.Keeps A.Admits m.heap r)
    (amid : Amid room i m) (hm : A.Holds m) (h : Turns (Executes p room) p room i m r) : A.Keeps A.Admits m.heap r := by
  induction h with
  | done last =>
    obtain ⟨onward, holds, ends⟩ := guides.turn deeper amid hm last
    exact ⟨onward, holds, ends _ rfl⟩
  | left last =>
    obtain ⟨onward, holds, ends⟩ := guides.turn deeper amid hm last
    exact ⟨onward, holds, ends⟩
  | next first _ ih =>
    have keeps := guides.turn deeper amid hm first
    exact (ih (guides.next amid first) keeps.holds).rebase keeps.onward

theorem Guides.executes {r : Result Variable} (h : Executes p room i m r) (before : Before room i m) (hm : A.Holds m) :
    A.Keeps A.Admits m.heap r := by
  refine h.induction (Q := fun room i m r => Before room i m → A.Holds m → A.Keeps A.Admits m.heap r)
    (fun m _ before hm => ?_) (fun m fault _ hm => ?_)
    (fun {room i m inside left} _ entered deeper turns before hm => ?_) before hm
  · exact .settle (.leaf hm (guides.literal before m.heap))
  · exact .settle (.faultAt hm _ _)
  · obtain ⟨same, holds⟩ := hm.enter entered
    exact .leaveFrame (same ▸ guides.turns deeper (guides.enter before entered) holds turns)

/-!
## While an instruction executes
-/

theorem Guides.passes (amid : Amid room i m) (hm : A.Holds m) (h : Passes p room i m m') :
    Amid room i m' ∧ A.Holds m' ∧ A.Onward m.heap m'.heap := by
  induction h with
  | here => exact ⟨amid, hm, A.refl _⟩
  | next first _ ih =>
    have turn := (turn_eq_iff.1 first).mono fun _ _ _ => executes_iff.2
    obtain ⟨onward, holds, _⟩ := guides.turn (fun _ _ _ => guides.executes) amid hm turn
    obtain ⟨amid, holds, later⟩ := ih (guides.next amid turn) holds
    exact ⟨amid, holds, A.trans onward later⟩

theorem Guides.visits (before : Before depth root m₀) (hm : A.Holds m₀) (h : Visits p depth root m₀ room i m) :
    Before room i m ∧ A.Holds m ∧ A.Onward m₀.heap m.heap := by
  induction h with
  | root => exact ⟨before, hm, A.refl _⟩
  | part _ entered passes move ih =>
    obtain ⟨before, holds, onward⟩ := ih
    obtain ⟨same, holds⟩ := holds.enter entered
    obtain ⟨amid, holds, later⟩ := guides.passes (guides.enter before entered) holds passes
    exact ⟨guides.part amid move, holds, A.trans onward (same ▸ later)⟩

theorem Guides.handles (before : Before depth root m₀) (hm : A.Holds m₀) (h : Handles p depth root m₀ i m) :
    A.Holds m := by
  cases h with
  | turn visits entered passes =>
    obtain ⟨before, holds, _⟩ := guides.visits before hm visits
    exact (guides.passes (guides.enter before entered) (holds.enter entered).2 passes).2.1
  | follow visits entered passes move ended =>
    obtain ⟨before, holds, _⟩ := guides.visits before hm visits
    obtain ⟨amid, holds, _⟩ := guides.passes (guides.enter before entered) (holds.enter entered).2 passes
    exact (guides.executes (executes_iff.2 ended) (guides.part amid move) holds).holds

end Guided
end Discipline
end Tickwise
