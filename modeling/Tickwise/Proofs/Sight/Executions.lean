import Tickwise.Proofs.Machine.Adequacy
import Tickwise.Proofs.Sight.Frames
set_option autoImplicit false

/-!
# Executions with variables in sight

Whatever executes in a compiled program, the variables that it accesses are declared in the frames around it,
except for those whose declarations a label of a switch has bypassed: each turn of an instruction keeps to
that, and so does every execution.
-/
namespace Tickwise

open Exec Tickwise.Frame

/-- The machine is about to execute an instruction of the program, with variables in sight. -/
structure Machine.Reaches (p : Program) (i : Instr) (m : Machine) : Prop where
  contains : p.Contains i
  fits : Fits p i m.deeper
  stacked : Stacked p i m.frames m.deeper

/-- The machine executes an instruction of the program, in its frame and with variables in sight. -/
structure Machine.Inhabits (p : Program) (i : Instr) (m : Machine) : Prop where
  contains : p.Contains i
  framed : m.frames ≠ []
  fits : Fits p i (m.own :: m.deeper)
  stacked : Stacked p i m.frames.tail (m.own :: m.deeper)

/-- An instruction that ends with a value has declared its variables around it, and a suspended one leaves frames
to go on with. -/
def Instr.EndsInSight (p : Program) (i : Instr) : Result Variable → Prop
  | (.ok _, m) => ∀ x ∈ i.declares, Declared x m.frames
  | (.error .suspended, m) => Stacked p i m.frames m.deeper
  | _ => True

structure BeneathInSight (p : Program) (run : Instr → Machine → Result Variable → Prop) : Prop where
  around : ∀ c m r, run c m r → m.Around r.2
  leaves : ∀ c m r, run c m r → Fits p c m.deeper → Leaves p c m r
  keeps : ∀ c m r, run c m r → m.Keeps r.2
  sight : ∀ c m r, run c m r → m.Reaches p c → c.EndsInSight p r

variable {p : Program} {run : Instr → Machine → Result Variable → Prop} {room : Nat} {i c : Instr}
  {m m' m₁ : Machine}

namespace Machine

theorem frames_eq (framed : m.frames ≠ []) : m.frames = m.own :: m.frames.tail := by
  obtain ⟨_ | _, _⟩ := m
  · exact absurd rfl framed
  · rfl

theorem Keeps.cons (h : m.Keeps m') (framed : m.frames ≠ []) (framed' : m'.frames ≠ []) :
    List.Forall₂ Frame.Keeps (m.own :: m.frames.tail) (m'.own :: m'.frames.tail) := by
  rw [← frames_eq framed, ← frames_eq framed']
  exact h

theorem declared_of_declare (framed : m.frames ≠ []) (enclosed : Enclosed m.frames.tail) (v : Variable) :
    Declared v.id (m.declare v).frames.tail := by
  obtain ⟨_ | ⟨f, fs⟩, _⟩ := m
  · exact absurd rfl framed
  · exact enclosed.declares v

namespace Inhabits

variable {D : List VarId}

theorem placed (h : m.Inhabits p i) : m.own.Placed p i m.frames.tail := h.stacked.1

theorem reaches {follow : Except Interrupt Variable → Exec (Option Variable)} (h : m.Inhabits p i)
    (move : i.move p m.own = .run c follow) : m.Reaches p c := by
  have agrees := h.fits.agrees move nofun
  refine ⟨h.contains.inner agrees, h.fits.inner agrees, ?_⟩
  rw [frames_eq h.framed]
  exact h.stacked.inner agrees

theorem onward (h : m.Inhabits p i) (keeps : m.Keeps m') (framed : m'.frames ≠ []) (on : i.Onward m.own D m'.own)
    (declared : ∀ x ∈ D, Declared x m'.frames) (fits : Fits p i (m'.own :: m'.deeper)) (rest : m'.deeper = []) :
    Stacked p i m'.frames.tail (m'.own :: m'.deeper) := by
  have placed : m'.own.Placed p i m'.frames.tail := by
    refine h.placed.onward on (keeps.cons h.framed framed) ?_
    rwa [← frames_eq framed]
  rw [rest] at fits ⊢
  refine placed.stacked h.contains fun id waits => ?_
  obtain ⟨_, _, _, beneath⟩ := fits
  rw [waits] at beneath
  obtain ⟨_, _, call, _⟩ := beneath
  cases call

end Inhabits
end Machine

theorem Exec.goOn_ne_some {e : Exec Unit} {v : Variable} : goOn e m ≠ (.ok (some v), m') := by
  unfold goOn
  rw [bind_apply]
  rcases e m with ⟨_ | _, _⟩ <;> nofun

theorem Instr.declares_cases (i : Instr) : i.declares = [] ∨ (∃ items, i.form = .declList items) ∨
    ∃ var name ty dims init, i.form = .declare var name ty dims init := by
  obtain ⟨_, _, form⟩ := i
  cases form with
  | declare var name ty dims init => exact .inr (.inr ⟨var, name, ty, dims, init, rfl⟩)
  | declList items => exact .inr (.inl ⟨items, rfl⟩)
  | _ => exact .inl rfl

theorem Instr.mem_declares_of_declared? {x : VarId} (h : i.declared? = some x) : x ∈ i.declares := by
  unfold declared? at h
  split at h
  case h_1 form =>
    cases h
    unfold declares
    rw [form]
    exact List.mem_singleton_self x
  case h_2 => cases h

namespace Exec

/-- If a computation ends with a value, it has declared the variable in the scope around its frame. -/
def Declares (x : VarId) (e : Exec (Option Variable)) : Prop :=
  ∀ m m' v, m.frames ≠ [] → Enclosed m.frames.tail → e m = (.ok (some v), m') → Declared x m'.frames.tail

theorem Declares.goOn {x : VarId} (e : Exec Unit) : Declares x (goOn e) := fun _ _ _ _ _ h => absurd h goOn_ne_some

theorem Declares.finish {e : Exec Variable} (plain : Plain (fun _ => True) e) (name : String) (x : VarId) :
    Declares x (finish do
      let v ← e
      declare (v.declaredAs name x)) := by
  intro m m' v framed enclosed h
  obtain ⟨_, m₂, h, done⟩ := ok_of_bind h
  cases done
  obtain ⟨w, m₁, first, h⟩ := ok_of_bind h
  cases h
  have keeps := plain.keeps m
  have framed' := ((plain.inside m).own_kind framed).1
  rw [first] at keeps framed'
  exact Machine.declared_of_declare framed' (enclosed.keep keeps.outer) (w.declaredAs name x)

end Exec

def Move.Declares (x : VarId) : Move → Prop
  | .run _ follow => ∀ o, Exec.Declares x (follow o)
  | .act action => Exec.Declares x action
  | _ => True

theorem Move.Declares.eval {x : VarId} {follow : Variable → Exec (Option Variable)}
    (h : ∀ v, Exec.Declares x (follow v)) : (Move.eval c follow).Declares x := by
  rintro (e | v)
  · exact nofun
  · exact h v

theorem Instr.declares_ofDeclare (span : Span) (var : VarId) (name : String) (ty : Ty) (dims : List Instr)
    (init : Option Instr) (f : Frame Variable) : (Move.ofDeclare span var name ty dims init f).Declares var := by
  unfold Move.ofDeclare
  split
  case isTrue =>
    unfold Move.collect
    split
    · exact .eval fun v => .goOn _
    · exact Exec.Declares.goOn _
  case isFalse =>
    cases init with
    | some init => exact .eval fun v => .finish (.convert trivial v ty) name var
    | none => exact Exec.Declares.finish (.undefinedValue trivial ty) name var

theorem Turn.ended_ofDeclList {items : List Instr} {v : Variable} (form : i.form = .declList items)
    (h : Turn run p room i m (.ok (some v), m')) : itemAt? items m.own.index = none ∧ m' = m := by
  have move : i.move p m.own = .sequence items m.own.index 0 (finish void) := by
    unfold Instr.move
    rw [form]
    rfl
  unfold Move.sequence at move
  generalize hc : ((.ok (some v), m') : Result (Option Variable)) = r at h
  cases hi : itemAt? items m.own.index with
  | some item =>
    rw [hi] at move
    cases h with
    | @child c follow o m₁ moves =>
      cases move.symm.trans moves
      cases o with
      | ok w => exact absurd hc.symm goOn_ne_some
      | error e => cases hc
    | _ => simp_all [Move.eval]
  | none =>
    rw [hi] at move
    cases h with
    | act moves =>
      cases move.symm.trans moves
      cases hc
      exact ⟨rfl, rfl⟩
    | _ => simp_all

theorem Turn.declares {v : Variable} (hr : BeneathInSight p run) (inside : m.Inhabits p i)
    (h : Turn run p room i m (.ok (some v), m')) : ∀ x ∈ i.declares, Declared x m'.frames.tail := by
  intro x hx
  have placed := inside.placed
  obtain ⟨scope, inner⟩ := placed.beside (List.ne_nil_of_mem hx)
  obtain none | ⟨items, form⟩ | ⟨var, name, ty, dims, init, form⟩ := i.declares_cases
  · rw [none] at hx
    cases hx
  · obtain ⟨behind, same⟩ := h.ended_ofDeclList form
    have from_zero := placed.from_zero (by rw [form]; rfl)
    have sure : i.Sure m.own.state m.own.index x := by
      unfold Instr.declares at hx
      unfold Instr.Sure Instr.scopeAt Instr.MayMiss
      rw [form] at hx ⊢
      refine ⟨?_, not_false⟩
      change x ∈ Instr.front items m.own.index.toNat
      rw [Instr.front_of_length_le (Instr.length_le_of_itemAt? behind from_zero)]
      obtain ⟨j, hj, declared⟩ := List.mem_filterMap.1 hx
      exact List.mem_flatMap.2 ⟨j, hj, Instr.mem_declares_of_declared? declared⟩
    rw [same]
    -- The list is no scope itself, so the declarations went to the one around it.
    rcases placed.sure x sure with ⟨here, _⟩ | ⟨_, declared⟩
    · rw [scope] at here
      cases here
    · exact declared
  · have only : i.declares = [var] := by
      unfold Instr.declares
      rw [form]
    rw [only] at hx
    obtain rfl := List.mem_singleton.1 hx
    have declares : (i.move p m.own).Declares x := by
      unfold Instr.move
      rw [form]
      exact Instr.declares_ofDeclare ..
    generalize hc : ((.ok (some v), m') : Result (Option Variable)) = r at h
    cases h with
    | @child c follow o m₁ move run =>
      rw [move] at declares
      have enclosed := (placed.enclosed inner).keep (hr.keeps _ _ _ run).outer
      exact declares o m₁ m' v ((hr.around _ _ _ run).frames_ne_nil inside.framed) enclosed hc.symm
    | pass | enter => exact absurd hc.symm goOn_ne_some
    | invoke move =>
      obtain ⟨_, _, _, call⟩ := inside.fits.agrees move nofun
      cases form.symm.trans call
    | act move =>
      rw [move] at declares
      exact declares m m' v inside.framed (placed.enclosed inner) hc.symm

theorem Turn.stacked_ofSuspended (hr : BeneathInSight p run) (inside : m.Inhabits p i)
    (h : Turn run p room i m (.error .suspended, m')) : Stacked p i m'.frames.tail (m'.own :: m'.deeper) := by
  have keeps := h.keeps hr.keeps
  have framed' := ((h.inside hr.around).own_kind inside.framed).1
  obtain ⟨_, _, inFlight, _⟩ := h.suspends hr.around hr.leaves inside.framed inside.fits
  have plain := i.move_isPlain p m.own
  generalize hc : ((.error .suspended, m') : Result (Option Variable)) = r at h
  cases h with
  | @child c follow o m₁ move run =>
    rw [move] at plain
    by_cases ho : o = .error .suspended
    · subst ho
      rw [plain.1] at hc
      cases hc
      have around := hr.around _ _ _ run
      have agrees := inside.fits.agrees move nofun
      rw [← i.waiting_congr around.own] at agrees
      refine .outer (inside.placed.same around.own (keeps.cons inside.framed framed')) agrees ?_
      rw [← Machine.frames_eq framed']
      exact hr.sight _ _ _ run (inside.reaches move)
    · exact absurd (congrArg Prod.fst hc).symm ((plain.2 o ho fun _ _ _ _ => trivial).ne_suspended m₁)
  | pass move =>
    rw [pass_apply] at hc
    split at hc
    · cases hc
    · split at hc
      · cases hc
        exact inside.stacked
      · cases hc
  | enter move => exact absurd (congrArg Prod.fst hc).symm (goOn_ne_suspended (ne_suspended_enterCallee _ _ _) m)
  | @invoke id f ret move =>
    obtain ⟨waits, args, ret', form⟩ := inside.fits.agrees move nofun
    have rest : m.deeper = [] := inside.fits.eq_nil_of_atRest (by rw [waits]; trivial)
    obtain ⟨phase, r, rfl⟩ := callNative_suspended (eq_error_of_finish hc.symm)
    have free {D : List VarId} {g : Frame Variable} : i.Onward m.own D g := .ofNative form
    exact inside.onward (D := []) keeps framed' free nofun inFlight.fits
      ((Machine.deeper_modifyFrame ..).trans ((Machine.deeper_modifyFrame ..).trans rest))
  | act move =>
    rw [move] at plain
    exact absurd (congrArg Prod.fst hc).symm (Plain.ne_suspended plain m)

theorem Turn.stacked_ofEnter {g : Function} (hp : p.Sighted) (inside : m.Inhabits p i)
    (move : i.move p m.own = .enter g) (keeps : m.Keeps m') (framed' : m'.frames ≠ [])
    (h : goOn (enterCallee i.span g room) m = (.ok none, m')) :
    Stacked p i m'.frames.tail (m'.own :: m'.deeper) := by
  obtain ⟨idle, id, args, ret, form, found⟩ := inside.fits.agrees move nofun
  have rest : m.deeper = [] := inside.fits.eq_nil_of_atRest (by rw [idle]; trivial)
  have arity : m.own.operands.length = g.params.length :=
    ((inside.placed.gathers form).all (Instr.state_of_enter form move)).trans (hp.arity inside.contains form found)
  have keep := keeps.cons inside.framed framed'
  have placed := inside.placed
  obtain ⟨params, n, bound, _, entered, rfl⟩ := enterCallee_ok (eq_ok_of_goOn h)
  obtain ⟨_ | ⟨own, frames⟩, deeper, _⟩ := m
  · exact absurd rfl inside.framed
  · subst rest
    cases entered
    have waits : i.waiting 2 0 = .callee id := by
      unfold Instr.waiting
      rw [form]
      rfl
    refine .outer (placed.onward (D := []) (.entered form rfl) keep nofun) (.inr ⟨id, g, waits, found, rfl⟩) ?_
    exact (Placed.ofCall hp found bound arity).stacked_start (Program.contains_body found) rfl

theorem Turn.stacked_ofGoing (hp : p.Sighted) (hr : BeneathInSight p run) (inside : m.Inhabits p i)
    (h : Turn run p room i m (.ok none, m')) : Stacked p i m'.frames.tail (m'.own :: m'.deeper) := by
  have keeps := h.keeps hr.keeps
  have framed' := ((h.inside hr.around).own_kind inside.framed).1
  have fits' := h.fits hr.around hr.leaves inside.framed inside.fits
  have plain := i.move_isPlain p m.own
  generalize hc : ((.ok none, m') : Result (Option Variable)) = r at h
  -- Opening the scope leaves the position as it is; after every other turn nothing is beneath, or a callee.
  cases opened : i.form.isScope && !m.own.scope with
  | true =>
    have opens := i.move_openScope opened (p := p)
    cases h with
    | act move =>
      cases opens.symm.trans move
      cases hc
      have keep := keeps.cons inside.framed framed'
      have own := Machine.own_modifyFrame inside.framed ({ · with scope := true })
      change (m.modifyFrame ({ · with scope := true })).own = { m.own with scope := true } at own
      rw [own] at keep ⊢
      rw [Machine.deeper_modifyFrame]
      have opening := Instr.Onward.opened (D := []) (f := m.own) (Bool.and_eq_true_iff.1 opened).1
      exact inside.stacked.reframe (inside.placed.onward opening keep nofun) rfl keep
    | _ => simp_all
  | false =>
    have onward := i.move_onward p opened
    cases h with
    | @child c follow o m₁ move run =>
      rw [move] at plain onward
      have agrees := inside.fits.agrees move nofun
      have left := hr.leaves _ _ _ run (inside.fits.inner agrees)
      by_cases ho : o = .error .suspended
      · rw [ho, plain.1] at hc
        cases hc
      · have plain := plain.2 o ho fun _ _ _ _ => trivial
        have rest := plain.deeper_eq_nil (left.clears ho)
        have after := plain.keeps m₁
        rw [← hc] at rest after
        have around := hr.around _ _ _ run
        have framed₁ := around.frames_ne_nil inside.framed
        have sight := hr.sight _ _ _ run (inside.reaches move)
        cases o with
        | ok v =>
          refine inside.onward keeps framed' (.of_bare (onward.1 v m₁ m' framed₁ around.own hc.symm)) ?_ fits' rest
          exact fun x hx => (sight x hx).keep after
        | error e =>
          have on := onward.2 e m₁ m' framed₁ around.own hc.symm
          exact inside.onward keeps framed' (.of_bare on) nofun fits' rest
    | pass move =>
      rw [move] at onward
      have agrees := inside.fits.agrees move nofun
      rw [pass_apply] at hc
      split at hc
      · cases hc
      · split at hc
        · cases hc
        · cases hc
          have rest := inside.fits.eq_nil_of_atRest (by rw [agrees]; trivial)
          refine inside.onward (D := []) keeps framed' ?_ nofun fits' ((Machine.deeper_modifyFrame ..).trans rest)
          rw [Machine.own_modifyFrame (by exact inside.framed)]
          exact onward
    | enter move => exact stacked_ofEnter hp inside move keeps framed' hc.symm
    | invoke move => exact absurd hc.symm (finish_ne_none _ m m')
    | act move =>
      rw [move] at plain onward
      have agrees := i.move_agrees p inside.fits.2.2.1 opened
      rw [move] at agrees
      rcases agrees with atRest | never
      · have rest := Plain.deeper_eq_nil plain (inside.fits.eq_nil_of_atRest atRest)
        rw [← hc] at rest
        exact inside.onward keeps framed' (.of_bare (onward m m' inside.framed rfl hc.symm)) nofun fits' rest
      · exact absurd hc.symm (never m m')

theorem Turn.inhabits (hp : p.Sighted) (hr : BeneathInSight p run) (inside : m.Inhabits p i)
    (h : Turn run p room i m (.ok none, m')) : m'.Inhabits p i where
  contains := inside.contains
  framed := ((h.inside hr.around).own_kind inside.framed).1
  fits := h.fits hr.around hr.leaves inside.framed inside.fits
  stacked := h.stacked_ofGoing hp hr inside

theorem Turns.sight {r : Result Variable} (hp : p.Sighted) (hr : BeneathInSight p run) (inside : m.Inhabits p i)
    (h : Turns run p room i m r) : i.EndsInSight p (leaveFrame r) := by
  induction h with
  | done last => exact last.declares hr inside
  | @left _ _ e last =>
    cases e with
    | suspended => exact last.stacked_ofSuspended hr inside
    | _ => trivial
  | next first _ ih => exact ih (first.inhabits hp hr inside)

theorem Machine.Reaches.enter {inside : Machine} (h : m.Reaches p i) (parts : i.isLeaf = false)
    (entered : m.enter? i.id = some inside) : inside.Inhabits p i := by
  obtain ⟨contains, fits, stacked⟩ := h
  obtain ⟨framed, fits', _⟩ := fits.enter entered
  refine ⟨contains, framed, fits', ?_⟩
  rcases hd : m.deeper with _ | ⟨f, rest⟩
  · cases (Machine.enter?_of_nil hd i.id).symm.trans entered
    rw [hd] at stacked
    dsimp only
    rw [hd]
    exact (Placed.fresh stacked.1 stacked.2 parts).stacked_start contains rfl
  · cases (fits.enter?_of_cons hd).symm.trans entered
    rw [hd] at stacked
    exact stacked

theorem Executes.sight {r : Result Variable} (hp : p.Sighted) (reaches : m.Reaches p i) (h : Executes p room i m r) :
    i.EndsInSight p r := by
  revert reaches
  refine h.induction (Q := fun _ i m r => m.Reaches p i → i.EndsInSight p r)
    (fun {_ i} m hl _ => ?_) (fun m fault _ => trivial)
    (fun {room i m inside left} hl hm deeper turns reaches => ?_)
  · have bare : i.declares = [] := by
      obtain ⟨_, _, form⟩ := i
      cases form with
      | declare => cases hl
      | declList => cases hl
      | _ => rfl
    have running := (Plain.leaf (P := fun _ => True) (i := i) trivial).ne_suspended m
    rw [settle_of_running running]
    generalize leaf i m = r at running
    obtain ⟨e | v, m'⟩ := r
    · cases e with
      | suspended => exact absurd rfl running
      | _ => trivial
    · change ∀ x ∈ i.declares, _
      rw [bare]
      nofun
  · have beneath : BeneathInSight p (Executes p room) :=
      ⟨fun _ _ _ hr => hr.around, fun _ _ _ hr fits => hr.leaves fits, fun _ _ _ hr => hr.keeps, deeper⟩
    exact turns.sight hp beneath (reaches.enter hl hm)

theorem Program.Sighted.beneath (hp : p.Sighted) (room : Nat) :
    BeneathInSight p fun c m r => exec p room c m = r where
  around _ _ _ hr := (executes_iff.2 hr).around
  leaves _ _ _ hr fits := (executes_iff.2 hr).leaves fits
  keeps _ _ _ hr := (executes_iff.2 hr).keeps
  sight _ _ _ hr reaches := (executes_iff.2 hr).sight hp reaches

end Tickwise
