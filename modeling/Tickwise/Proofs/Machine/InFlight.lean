import Tickwise.Proofs.Machine.Agreement
set_option autoImplicit false

/-!
# Instructions in flight

The frames that a suspended instruction leaves behind form one path: each waits for the instruction or
the function body that the next one belongs to, and the innermost waits for nothing.
-/
namespace Tickwise

open Exec

/-- The frames, outermost first, are those of the instructions in flight from `i` on; the innermost
one is `g`, of `j`. -/
inductive InFlight (p : Program) : Instr → List (Frame Variable) → Instr → Frame Variable → Prop
  | idle {i : Instr} {f : Frame Variable} (node : f.node = i.id) (live : f.live = true)
      (waits : i.waiting f.state f.index = .idle) : InFlight p i [f] i f
  | child {i c j : Instr} {f g : Frame Variable} {rest : List (Frame Variable)}
      (node : f.node = i.id) (live : f.live = true) (waits : i.waiting f.state f.index = .child c)
      (parts : c.isLeaf = false) (inner : InFlight p c rest j g) : InFlight p i (f :: rest) j g
  | callee {i j : Instr} {id : FunctionId} {h : Function} {f g : Frame Variable}
      {rest : List (Frame Variable)} (node : f.node = i.id) (live : f.live = true)
      (waits : i.waiting f.state f.index = .callee id) (found : p.function? id = some h)
      (call : rest.head?.any Frame.call = true) (inner : InFlight p h.body rest j g) :
      InFlight p i (f :: rest) j g

/-- An instruction can go on with these frames, outermost first: each is at a position that its
instruction has, and belongs to what the one before it waits for. -/
def Fits (p : Program) (i : Instr) : List (Frame Variable) → Prop
  | [] => True
  | f :: rest => f.node = i.id ∧ f.live = true ∧ f.state < i.form.states ∧
    match i.waiting f.state f.index with
    | .child c => Fits p c rest
    | .callee id => ∃ g, p.function? id = some g ∧ rest.head?.any Frame.call = true ∧
        Fits p g.body rest
    | _ => rest = []

/-- The frame of a call whose native asked to be invoked again. -/
def Instr.PendingNative (i : Instr) (f : Frame Variable) : Prop :=
  f.state = 2 ∧ ∃ id args ret, i.form = .call (.native id) args ret

/-- An instruction is suspended with these frames because the budget is used up or a native is
pending. -/
def Suspends (p : Program) (i : Instr) (frames : List (Frame Variable)) (budget : Nat) : Prop :=
  ∃ j g, InFlight p i frames j g ∧ (budget = 0 ∨ j.PendingNative g)

theorem Form.ownStates_le {ι : Type} (form : Form ι) : form.ownStates ≤ form.states := by
  cases form <;> simp

theorem Form.ownStates_pos {ι : Type} (form : Form ι) : 0 < form.ownStates := by
  cases form <;> simp

theorem Form.waiting_ne_callee {ι : Type} {form : Form ι} {state : Nat}
    (h : state < form.ownStates) (index : Int) (id : FunctionId) :
    form.waiting state index ≠ .callee id := by
  have entry (items : List ι) : Waiting.onEntry items index ≠ .callee id := by
    unfold Waiting.onEntry
    cases itemAt? items index <;> nofun
  have clause (catches : List (Catch ι)) (part : Catch ι → ι) :
      ((itemAt? catches index).map fun c => Waiting.child (part c)).getD .invalid ≠ .callee id := by
    cases itemAt? catches index <;> nofun
  have before (items : List ι) : Waiting.beforeEntry items index ≠ .callee id := by
    unfold Waiting.beforeEntry
    split <;> nofun
  revert h
  unfold waiting
  split <;> simp [entry, before, clause]

theorem Instr.state_lt_of_waiting {i : Instr} {f : Frame Variable} {w : Waiting Instr}
    (h : i.waiting f.state f.index = w) (hw : w ≠ .invalid) : f.state < i.form.states :=
  Form.state_lt_of_waiting fun hi => hw (h.symm.trans hi)

theorem InFlight.fits {p : Program} {i j : Instr} {g : Frame Variable}
    {frames : List (Frame Variable)} (h : InFlight p i frames j g) : Fits p i frames := by
  induction h with
  | idle node live waits =>
    refine ⟨node, live, Instr.state_lt_of_waiting waits nofun, ?_⟩
    rw [waits]
  | child node live waits _ _ ih =>
    refine ⟨node, live, Instr.state_lt_of_waiting waits nofun, ?_⟩
    rw [waits]
    exact ih
  | callee node live waits found call _ ih =>
    refine ⟨node, live, Instr.state_lt_of_waiting waits nofun, ?_⟩
    rw [waits]
    exact ⟨_, found, call, ih⟩

namespace Fits

variable {p : Program} {i : Instr} {f : Frame Variable} {rest : List (Frame Variable)}

theorem eq_nil_of_atRest (h : Fits p i (f :: rest))
    (atRest : (i.waiting f.state f.index).AtRest) : rest = [] := by
  obtain ⟨_, _, _, beneath⟩ := h
  cases hw : i.waiting f.state f.index with
  | idle =>
    rw [hw] at beneath
    exact beneath
  | invalid =>
    rw [hw] at beneath
    exact beneath
  | child c =>
    rw [hw] at atRest
    exact atRest.elim
  | callee id =>
    rw [hw] at atRest
    exact atRest.elim

theorem inner {c : Instr} {follow : Except Interrupt Variable → Exec (Option Variable)}
    (h : Fits p i (f :: rest))
    (agrees : (Move.run c follow).Agrees p i.form (i.waiting f.state f.index)) : Fits p c rest := by
  obtain ⟨_, _, _, beneath⟩ := h
  rcases agrees with waits | ⟨id, g, waits, found, rfl⟩
  · rw [waits] at beneath
    exact beneath
  · rw [waits] at beneath
    obtain ⟨g', found', _, beneath⟩ := beneath
    cases found.symm.trans found'
    exact beneath

theorem agrees {move : Move} (h : Fits p i (f :: rest)) (moves : i.move p f = move)
    (acts : ∀ action, move ≠ .act action) : move.Agrees p i.form (i.waiting f.state f.index) :=
  i.agrees_of_move h.2.2.1 moves acts

end Fits

def Along (p : Program) (Q : Instr → Frame Variable → Prop) : Instr → List (Frame Variable) → Prop
  | _, [] => True
  | i, f :: rest => Q i f ∧ match i.waiting f.state f.index with
    | .child c => Along p Q c rest
    | .callee id => ∀ g, p.function? id = some g → Along p Q g.body rest
    | _ => True

namespace Along

variable {p : Program} {Q : Instr → Frame Variable → Prop} {i c : Instr} {f : Frame Variable}
  {rest : List (Frame Variable)}

theorem single (h : Q i f) : Along p Q i [f] := by
  refine ⟨h, ?_⟩
  split
  · trivial
  · exact fun _ _ => trivial
  · trivial

theorem inner {follow : Except Interrupt Variable → Exec (Option Variable)}
    (h : Along p Q i (f :: rest))
    (agrees : (Move.run c follow).Agrees p i.form (i.waiting f.state f.index)) : Along p Q c rest := by
  obtain ⟨_, beneath⟩ := h
  rcases agrees with waits | ⟨id, g, waits, found, rfl⟩
  · rw [waits] at beneath
    exact beneath
  · rw [waits] at beneath
    exact beneath g found

theorem outer {follow : Except Interrupt Variable → Exec (Option Variable)} (h : Q i f)
    (agrees : (Move.run c follow).Agrees p i.form (i.waiting f.state f.index))
    (beneath : Along p Q c rest) : Along p Q i (f :: rest) := by
  refine ⟨h, ?_⟩
  rcases agrees with waits | ⟨id, g, waits, found, rfl⟩
  · rw [waits]
    exact beneath
  · rw [waits]
    intro g' hg
    cases found.symm.trans hg
    exact beneath

end Along

theorem fits_of_ownState {p : Program} {i : Instr} {f : Frame Variable} (node : f.node = i.id)
    (live : f.live = true) (hs : f.state < i.form.ownStates) : Fits p i [f] := by
  refine ⟨node, live, Nat.lt_of_lt_of_le hs i.form.ownStates_le, ?_⟩
  cases hw : i.waiting f.state f.index with
  | child c => trivial
  | callee id => exact absurd hw (Form.waiting_ne_callee hs _ _)
  | idle => rfl
  | invalid => rfl

theorem fits_start (p : Program) (i : Instr) (f : Frame Variable) (node : f.node = i.id)
    (live : f.live = true) (hs : f.state = 0) : Fits p i [f] := by
  refine fits_of_ownState node live ?_
  rw [hs]
  exact i.form.ownStates_pos

structure Leaves (p : Program) (i : Instr) (m : Machine) (r : Result Variable) : Prop where
  parts : r.1 = .error .suspended → i.isLeaf = false
  suspends : r.1 = .error .suspended → Suspends p i r.2.deeper r.2.budget
  call : r.1 = .error .suspended →
    r.2.deeper.head?.any Frame.call = m.deeper.head?.any Frame.call
  clears : r.1 ≠ .error .suspended → r.2.deeper = []

variable {run : Instr → Machine → Result Variable → Prop} {p : Program} {room : Nat} {i : Instr}
  {m : Machine}

theorem goOn_ne_suspended {c : Exec Unit} (h : ∀ m, (c m).1 ≠ .error .suspended) (m : Machine) :
    (goOn c m).1 ≠ .error .suspended :=
  ne_suspended_bind h (fun _ _ he => by cases he) m

theorem deeper_enterCallee {span : Span} {f : Function} {m m' : Machine} (hd : m.deeper = [])
    (h : goOn (enterCallee span f room) m = (.ok none, m')) :
    ∃ params, m'.deeper = [Frame.ofCall f.body.id params] := by
  obtain ⟨params, n, _, _, placed, rfl⟩ := enterCallee_ok (eq_ok_of_goOn h)
  refine ⟨params, ?_⟩
  unfold Machine.placeCallee? at placed
  rw [Machine.deeper_modifyFrame, hd] at placed
  cases placed
  exact Machine.deeper_modifyFrame _ _

theorem Turn.suspended {m' : Machine} (hr : ∀ c m r, run c m r → m.Around r.2) (hm : m.frames ≠ [])
    (fits : Fits p i (m.own :: m.deeper)) (h : Turn run p room i m (.error .suspended, m')) :
    (m'.deeper = [] ∧ i.waiting m'.own.state m'.own.index = .idle ∧
      (m'.budget = 0 ∨ i.PendingNative m'.own)) ∨
    ∃ c follow, run c m (.error .suspended, m') ∧ i.move p m.own = .run c follow ∧
      i.waiting m'.own.state m'.own.index = i.waiting m.own.state m.own.index := by
  generalize hc : ((.error .suspended, m') : Result (Option Variable)) = r at h
  have plain := i.move_isPlain p m.own
  cases h with
  | @child c follow o m₁ move inner =>
    rw [move] at plain
    by_cases ho : o = .error .suspended
    · subst ho
      rw [plain.1] at hc
      cases hc
      exact .inr ⟨c, follow, inner, move, i.waiting_congr (hr _ _ _ inner).own⟩
    · exact absurd (congrArg Prod.fst hc).symm ((plain.2 o ho fun _ _ _ _ => trivial).ne_suspended m₁)
  | pass move =>
    have agrees := fits.agrees move nofun
    have hd : m.deeper = [] := fits.eq_nil_of_atRest (by rw [agrees]; trivial)
    rw [pass_apply] at hc
    split at hc
    · cases hc
    · split at hc
      case isTrue hb =>
        cases hc
        exact .inl ⟨hd, agrees, .inl hb⟩
      case isFalse => cases hc
  | enter move =>
    exact absurd (congrArg Prod.fst hc).symm (goOn_ne_suspended (ne_suspended_enterCallee _ _ _) m)
  | @invoke id f ret move =>
    obtain ⟨waits, args, ret', form⟩ := fits.agrees move nofun
    have hd : m.deeper = [] := fits.eq_nil_of_atRest (by rw [waits]; trivial)
    obtain ⟨phase, r, rfl⟩ := callNative_suspended (eq_error_of_finish hc.symm)
    obtain ⟨_ | ⟨own, frames⟩, deeper, heap, journal, budget, taken, stop⟩ := m
    · exact absurd rfl hm
    · refine .inl ⟨hd, ?_, .inr ⟨rfl, id, args, ret', form⟩⟩
      unfold Instr.waiting
      rw [form]
      rfl
  | act move =>
    rw [move] at plain
    exact absurd (congrArg Prod.fst hc).symm (Plain.ne_suspended plain m)

theorem Turn.goes {m' : Machine} (hr : ∀ c m r, run c m r → m.Around r.2)
    (leaves : ∀ c m r, run c m r → Fits p c m.deeper → Leaves p c m r)
    (hm : m.frames ≠ []) (fits : Fits p i (m.own :: m.deeper))
    (h : Turn run p room i m (.ok none, m')) :
    (i.move p m.own = .act (goOn openScope) ∧ m'.deeper = m.deeper ∧
      m'.own = { m.own with scope := true }) ∨
    (∃ id g params, i.waiting m'.own.state m'.own.index = .callee id ∧ p.function? id = some g ∧
      m'.deeper = [Frame.ofCall g.body.id params]) ∨
    (m'.deeper = [] ∧ m'.own.state < i.form.ownStates) := by
  have continues := h.continues hr hm
  generalize hc : ((.ok none, m') : Result (Option Variable)) = r at h
  cases continues with
  | opened move same less =>
    subst same
    exact .inl ⟨move, Machine.deeper_modifyFrame _ _, Machine.own_modifyFrame hm _⟩
  | @entered g move state index less =>
    obtain ⟨waits, id, args, ret, form, found⟩ := fits.agrees move nofun
    have hd : m.deeper = [] := fits.eq_nil_of_atRest (by rw [waits]; trivial)
    cases h with
    | enter move' =>
      cases move.symm.trans move'
      obtain ⟨params, deeper⟩ := deeper_enterCallee hd hc.symm
      refine .inr (.inl ⟨id, g, params, ?_, found, deeper⟩)
      unfold Instr.waiting
      rw [form, state]
      rfl
    | _ => simp_all
  | moved opened own state less =>
    refine .inr (.inr ⟨?_, state⟩)
    have plain := i.move_isPlain p m.own
    cases h with
    | @child c follow o m₁ move inner =>
      rw [move] at plain
      have left := leaves _ _ _ inner (fits.inner (fits.agrees move nofun))
      by_cases ho : o = .error .suspended
      · rw [ho, plain.1] at hc
        cases hc
      · have deeper := (plain.2 o ho fun _ _ _ _ => trivial).deeper_eq_nil (left.clears ho)
        rw [← hc] at deeper
        exact deeper
    | pass move =>
      have agrees := fits.agrees move nofun
      rw [pass_apply] at hc
      split at hc
      · cases hc
      · split at hc
        · cases hc
        · cases hc
          exact (Machine.deeper_modifyFrame _ _).trans (fits.eq_nil_of_atRest (by rw [agrees]; trivial))
    | enter move => exact absurd move (own _)
    | invoke move => exact absurd hc.symm (finish_ne_none _ m m')
    | act move =>
      have agrees := i.move_agrees p fits.2.2.1 opened
      rw [move] at plain agrees
      rcases agrees with atRest | never
      · have deeper := Plain.deeper_eq_nil plain (fits.eq_nil_of_atRest atRest)
        rw [← hc] at deeper
        exact deeper
      · exact absurd hc.symm (never m m')

theorem Turn.suspends {m' : Machine} (hr : ∀ c m r, run c m r → m.Around r.2)
    (leaves : ∀ c m r, run c m r → Fits p c m.deeper → Leaves p c m r)
    (hm : m.frames ≠ []) (fits : Fits p i (m.own :: m.deeper))
    (h : Turn run p room i m (.error .suspended, m')) :
    Suspends p i (m'.own :: m'.deeper) m'.budget := by
  obtain ⟨node, live, _, beneath⟩ := id fits
  obtain ⟨_, kind⟩ := (h.inside hr).own_kind hm
  have node' : m'.own.node = i.id := (congrArg Prod.fst kind).trans node
  have live' : m'.own.live = true := (congrArg (fun k => k.2.2) kind).trans live
  rcases h.suspended hr hm fits with ⟨rest, idle, reason⟩ | ⟨c, follow, inner, move, same⟩
  · rw [rest]
    exact ⟨i, m'.own, .idle node' live' idle, reason⟩
  · have agrees := fits.agrees move nofun
    have left := leaves _ _ _ inner (fits.inner agrees)
    obtain ⟨j, g, inFlight, reason⟩ := left.suspends rfl
    rcases agrees with waits | ⟨id, g, waits, found, rfl⟩
    · exact ⟨j, _, .child node' live' (same.trans waits) (left.parts rfl) inFlight, reason⟩
    · rw [waits] at beneath
      obtain ⟨_, _, call, _⟩ := beneath
      have call' := (left.call rfl).trans call
      exact ⟨j, _, .callee node' live' (same.trans waits) found call' inFlight, reason⟩

theorem Turn.fits {m' : Machine} (hr : ∀ c m r, run c m r → m.Around r.2)
    (leaves : ∀ c m r, run c m r → Fits p c m.deeper → Leaves p c m r)
    (hm : m.frames ≠ []) (fits : Fits p i (m.own :: m.deeper))
    (h : Turn run p room i m (.ok none, m')) : Fits p i (m'.own :: m'.deeper) := by
  obtain ⟨node, live, hs, beneath⟩ := id fits
  obtain ⟨_, kind⟩ := (h.inside hr).own_kind hm
  have node' : m'.own.node = i.id := (congrArg Prod.fst kind).trans node
  have live' : m'.own.live = true := (congrArg (fun k => k.2.2) kind).trans live
  rcases h.goes hr leaves hm fits with ⟨_, same, own⟩ | ⟨id, g, params, waits, found, new⟩ | ⟨none, state⟩
  · rw [same, own]
    exact ⟨node, live, hs, beneath⟩
  · refine ⟨node', live', Instr.state_lt_of_waiting waits nofun, ?_⟩
    rw [waits, new]
    exact ⟨g, found, rfl, fits_start p g.body _ rfl rfl rfl⟩
  · rw [none]
    exact fits_of_ownState node' live' state

theorem Turns.suspends {r : Result Variable} (hr : ∀ c m r, run c m r → m.Around r.2)
    (leaves : ∀ c m r, run c m r → Fits p c m.deeper → Leaves p c m r)
    (hm : m.frames ≠ []) (fits : Fits p i (m.own :: m.deeper)) (h : Turns run p room i m r) :
    r.1 = .error .suspended → Suspends p i (r.2.own :: r.2.deeper) r.2.budget := by
  induction h with
  | done last => nofun
  | left last =>
    intro he
    cases he
    exact last.suspends hr leaves hm fits
  | next first _ ih =>
    exact ih ((first.inside hr).own_kind hm).1 (first.fits hr leaves hm fits)

theorem Fits.enter?_of_cons {f : Frame Variable} {rest : List (Frame Variable)} (fits : Fits p i m.deeper)
    (left : m.deeper = f :: rest) :
    m.enter? i.id = some { m with frames := f :: m.frames, deeper := rest } := by
  rw [left] at fits
  exact Machine.enter?_of_cons left fits.1 fits.2.1

theorem Fits.enter {inside : Machine} (fits : Fits p i m.deeper)
    (hm : m.enter? i.id = some inside) :
    inside.frames ≠ [] ∧ Fits p i (inside.own :: inside.deeper) ∧
      inside.own.call = m.deeper.head?.any Frame.call := by
  rcases hd : m.deeper with _ | ⟨f, rest⟩
  · cases (Machine.enter?_of_nil hd i.id).symm.trans hm
    dsimp only
    rw [hd]
    exact ⟨List.cons_ne_nil _ _, fits_start p i _ rfl rfl rfl, rfl⟩
  · cases (fits.enter?_of_cons hd).symm.trans hm
    rw [hd] at fits
    exact ⟨List.cons_ne_nil _ _, fits, rfl⟩

theorem Executes.leaves {r : Result Variable} (h : Executes p room i m r) (fits : Fits p i m.deeper) :
    Leaves p i m r := by
  revert fits
  refine h.induction (Q := fun _ i m r => Fits p i m.deeper → Leaves p i m r)
    (fun {_ i} m _ fits => ?_) (fun m fault fits => ?_)
    (fun {room i m inside left} hl hm deeper turns fits => ?_)
  · have running := (Plain.leaf (i := i) trivial).ne_suspended m
    rw [settle_of_running running]
    exact ⟨fun h => absurd h running, fun h => absurd h running, fun h => absurd h running, fun _ => rfl⟩
  · exact ⟨nofun, nofun, nofun, fun _ => rfl⟩
  · obtain ⟨hi, fits, call⟩ := fits.enter hm
    have around : ∀ c m r, Executes p room c m r → m.Around r.2 := fun _ _ _ hr => hr.around
    have suspends := turns.suspends around deeper hi fits
    have kind := ((turns.inside around).own_kind hi).2
    obtain ⟨o, m'⟩ := left
    by_cases ho : o = .error .suspended
    · subst ho
      have call' : m'.own.call = inside.own.call := congrArg (fun k => k.2.1) kind
      exact ⟨fun _ => hl, fun _ => suspends rfl, fun _ => call'.trans call, fun h => absurd rfl h⟩
    · rw [leaveFrame_of_running ho]
      exact ⟨fun h => absurd h ho, fun h => absurd h ho, fun h => absurd h ho, fun _ => rfl⟩

end Tickwise
