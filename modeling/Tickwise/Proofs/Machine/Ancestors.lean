import Tickwise.Proofs.Machine.Depth
import Tickwise.Proofs.Machine.Invoked
set_option autoImplicit false

/-!
# The frames of an instruction and those around it

Frames belong to instructions by their positions only. Around an instruction that is executed are those of the
instructions it is a part of, and beneath them those that it left behind, or that of a function body that was entered.
It takes its own away when it ends and touches no other but for variables.
-/
namespace Tickwise

open Exec

/-- The frames, outermost first, are those of the instructions that lead from one to another: each waits for what the
next one belongs to, and the innermost for `j`. -/
inductive Ancestors (p : Program) : Instr → List (Frame Variable) → Instr → Prop
  | self {i : Instr} : Ancestors p i [] i
  | child {i c j : Instr} {f : Frame Variable} {rest : List (Frame Variable)} (node : f.node = i.id)
      (live : f.live = true) (waits : i.waiting f.state f.index = .child c) (inner : Ancestors p c rest j) :
      Ancestors p i (f :: rest) j
  | callee {i j : Instr} {id : FunctionId} {g : Function} {f : Frame Variable} {rest : List (Frame Variable)}
      (node : f.node = i.id) (live : f.live = true) (waits : i.waiting f.state f.index = .callee id)
      (found : p.function? id = some g) (inner : Ancestors p g.body rest j) : Ancestors p i (f :: rest) j

/-- What an instruction that is executed finds beneath the frames around it: nothing, the frame of a function body that
was entered, or, where frames `left` behind are gone on with, its own among those. -/
inductive Machine.Uncovers (p : Program) (left : List (Frame Variable)) (again : Prop) (i : Instr) (m : Machine) : Prop
  | nothing (none : m.deeper = [])
  | entered {id : FunctionId} {g : Function} {params : List Variable} (found : p.function? id = some g)
      (body : g.body = i) (callee : m.deeper = [Frame.ofCall i.id params])
  | own {j : Instr} {g : Frame Variable} (resumed : again) (same : m.deeper = left.drop m.frames.length)
      (inFlight : InFlight p i m.deeper j g)

/-- An instruction is executed within the frames of its ancestors from `root` on, as deep as `room` says. -/
structure Machine.Surrounds (p : Program) (depth : Nat) (root : Instr) (left : List (Frame Variable)) (again : Prop)
    (room : Nat) (i : Instr) (m : Machine) : Prop where
  frames : m.frames.length + room = depth
  ancestors : Ancestors p root m.frames.reverse i
  beneath : m.Uncovers p left again i
  most : m.frames.length + m.deeper.length ≤ max 1 depth

variable {p : Program} {depth room : Nat} {root i c j : Instr} {m m' inside : Machine} {f g : Frame Variable}
  {fs gs left : List (Frame Variable)} {again : Prop}
  {follow : Except Interrupt Variable → Exec (Option Variable)}

namespace Ancestors

theorem congr (h : Ancestors p i fs j) (same : gs.map Frame.bare = fs.map Frame.bare) : Ancestors p i gs j := by
  induction h generalizing gs with
  | self =>
    obtain rfl := List.map_eq_nil_iff.1 same
    exact .self
  | @child i c j f rest node live waits _ ih =>
    obtain ⟨g, gs, rfl, bare, same⟩ := List.map_eq_cons_iff.1 same
    have waits' := (i.waiting_congr bare).trans waits
    have kind := congrArg Frame.kind bare
    exact .child ((congrArg Prod.fst kind).trans node) ((congrArg (fun k => k.2.2) kind).trans live) waits' (ih same)
  | @callee i j id h f rest node live waits found _ ih =>
    obtain ⟨g, gs, rfl, bare, same⟩ := List.map_eq_cons_iff.1 same
    have waits' := (i.waiting_congr bare).trans waits
    have kind := congrArg Frame.kind bare
    exact .callee ((congrArg Prod.fst kind).trans node) ((congrArg (fun k => k.2.2) kind).trans live) waits' found
      (ih same)

theorem part (h : Ancestors p i fs j) (node : f.node = j.id) (live : f.live = true)
    (agrees : (Move.run c follow).Agrees p j.form (j.waiting f.state f.index)) : Ancestors p i (fs ++ [f]) c := by
  induction h with
  | self =>
    rcases agrees with waits | ⟨id, g, waits, found, rfl⟩
    · exact .child node live waits .self
    · exact .callee node live waits found .self
  | child node' live' waits _ ih => exact .child node' live' waits (ih node agrees)
  | callee node' live' waits found _ ih => exact .callee node' live' waits found (ih node agrees)

end Ancestors

theorem InFlight.inner (h : InFlight p i (f :: fs) j g)
    (agrees : (Move.run c follow).Agrees p i.form (i.waiting f.state f.index)) : InFlight p c fs j g := by
  rcases agrees with waits | ⟨id, k, waits, found, rfl⟩
  · cases h with
    | idle _ _ idle => cases waits.symm.trans idle
    | child _ _ waits' _ inner =>
      cases waits.symm.trans waits'
      exact inner
    | callee _ _ waits' => cases waits.symm.trans waits'
  · cases h with
    | idle _ _ idle => cases waits.symm.trans idle
    | child _ _ waits' => cases waits.symm.trans waits'
    | callee _ _ waits' found' _ inner =>
      cases waits.symm.trans waits'
      cases found.symm.trans found'
      exact inner

theorem Passes.goes (h : Passes p room i m m') (hm : m.frames ≠ []) (fits : Fits p i (m.own :: m.deeper)) :
    m'.frames ≠ [] ∧ Fits p i (m'.own :: m'.deeper) ∧
      (m'.deeper = m.deeper ∧ i.waiting m'.own.state m'.own.index = i.waiting m.own.state m.own.index ∨
        (∃ id g params, i.waiting m'.own.state m'.own.index = .callee id ∧ p.function? id = some g ∧
          m'.deeper = [Frame.ofCall g.body.id params]) ∨ m'.deeper = []) := by
  induction h with
  | here => exact ⟨hm, fits, .inl ⟨rfl, rfl⟩⟩
  | @next m m₁ m' first _ ih =>
    have turn := Turn.executes_iff.2 first
    have around : ∀ c m r, Executes p room c m r → m.Around r.2 := fun _ _ _ hr => hr.around
    have leaves : ∀ c m r, Executes p room c m r → Fits p c m.deeper → Leaves p c m r := fun _ _ _ hr => hr.leaves
    obtain ⟨hm', fits', went⟩ := ih ((turn.inside around).own_kind hm).1 (turn.fits around leaves hm fits)
    refine ⟨hm', fits', ?_⟩
    rcases went with ⟨deeper, waits⟩ | went
    · rw [deeper, waits]
      rcases turn.goes around leaves hm fits with ⟨_, same, own⟩ | entered | ⟨none, _⟩
      · exact .inl ⟨same, by rw [own]⟩
      · exact .inr (.inl entered)
      · exact .inr (.inr none)
    · exact .inr went

theorem Passes.deeper_le (h : Passes p room i m m') (hm : m.deeper.length ≤ room) : m'.deeper.length ≤ room := by
  induction h with
  | here => exact hm
  | next first _ ih =>
    exact ih ((Turn.executes_iff.2 first).deeper_le (fun _ _ _ hr => hr.deeper_le) hm)

theorem Machine.Inside.length_frames (h : m.Inside m') : m'.frames.length = m.frames.length := by
  have own := h.own
  have outer := congrArg List.length h.outer
  rcases hm : m.frames with _ | ⟨f, fs⟩ <;> rcases hn : m'.frames with _ | ⟨g, gs⟩ <;> simp_all

theorem Machine.Uncovers.fits (h : m.Uncovers p left again i) : Fits p i m.deeper := by
  cases h with
  | nothing none =>
    rw [none]
    trivial
  | entered _ body callee =>
    rw [callee, ← body]
    exact fits_start p _ _ rfl rfl rfl
  | own _ _ inFlight => exact inFlight.fits

theorem Machine.Uncovers.enter (h : m.Uncovers p left again i) (entered : m.enter? i.id = some inside) :
    inside.deeper = [] ∨ again ∧ inside.deeper = left.drop inside.frames.length ∧
      ∃ j g, InFlight p i (inside.own :: inside.deeper) j g := by
  have fits := h.fits
  cases h with
  | nothing none =>
    rw [m.enter?_of_nil none] at entered
    cases entered
    exact .inl none
  | entered _ _ callee =>
    rw [fits.enter?_of_cons callee] at entered
    cases entered
    exact .inl rfl
  | @own j g resumed same inFlight =>
    cases beneath : m.deeper with
    | nil =>
      rw [m.enter?_of_nil beneath] at entered
      cases entered
      exact .inl beneath
    | cons f rest =>
      rw [fits.enter?_of_cons beneath] at entered
      cases entered
      rw [beneath] at same inFlight
      refine .inr ⟨resumed, ?_, j, g, inFlight⟩
      change rest = left.drop (m.frames.length + 1)
      rw [← List.drop_drop, ← same]
      rfl

structure Machine.Occupies (depth : Nat) (i : Instr) (m m' : Machine) : Prop where
  frames : m'.frames.length = m.frames.length + 1
  node : m'.own.node = i.id
  live : m'.own.live = true
  outer : m'.frames.tail.map Frame.bare = m.frames.map Frame.bare
  most : m'.frames.length + m'.deeper.length ≤ max 1 depth

structure Machine.Quits (depth : Nat) (i : Instr) (m : Machine) (r : Result Variable) : Prop where
  around : r.2.frames.map Frame.bare = m.frames.map Frame.bare
  ended : r.1 ≠ .error .suspended → r.2.deeper = []
  suspended : r.1 = .error .suspended → ∃ own rest, r.2.deeper = own :: rest ∧ own.node = i.id
  most : r.2.frames.length + r.2.deeper.length ≤ max 1 depth

namespace Machine.Surrounds

theorem enter? (h : m.Surrounds p depth root left again room i) : ∃ inside, m.enter? i.id = some inside :=
  h.beneath.fits.entered

theorem quits (h : m.Surrounds p depth root left again room i) : m.Quits depth i (exec p room i m) := by
  have run := executes_exec p room i m
  have leaves := run.leaves h.beneath.fits
  have around := run.around.frames
  have length := congrArg List.length around
  rw [List.length_map, List.length_map] at length
  have frames := h.frames
  have most := h.most
  refine ⟨around, leaves.clears, fun suspended => ?_, ?_⟩
  · obtain ⟨j, g, inFlight, _⟩ := leaves.suspends suspended
    generalize (exec p room i m).2.deeper = frames at inFlight
    cases inFlight with
    | idle node | child node | callee node => exact ⟨_, _, rfl, node⟩
  · by_cases suspended : (exec p room i m).1 = .error .suspended
    · cases room with
      | zero =>
        have overflow := (Executes.of_overflow (leaves.parts suspended)).1 run
        rw [overflow] at suspended
        cases suspended
      | succ room =>
        have beneath := run.deeper_le (by omega)
        omega
    · rw [leaves.clears suspended, List.length_nil]
      omega

section

variable (h : m.Surrounds p depth root left again (room + 1) i) (entered : m.enter? i.id = some inside)
  (passes : Passes p room i inside m')

include h entered passes

theorem occupies : m.Occupies depth i m' := by
  obtain ⟨hi, fits, _⟩ := h.beneath.fits.enter entered
  obtain ⟨hm', fits', _⟩ := passes.goes hi fits
  obtain ⟨f, deeper, _, _, rfl⟩ := m.enter?_frames entered
  have outer : m'.frames.tail.map Frame.bare = m.frames.map Frame.bare := passes.inside.outer
  have length := congrArg List.length outer
  rw [List.length_map, List.length_map, List.length_tail] at length
  have some := List.length_pos_iff.2 hm'
  have frames := h.frames
  have most := h.most
  have beneath := passes.deeper_le (Machine.deeper_le_of_enter? entered (by omega))
  exact ⟨by omega, fits'.1, fits'.2.1, outer, by omega⟩

theorem part (move : i.move p m'.own = .run c follow) : m'.Surrounds p depth root left again room c := by
  have occupies := h.occupies entered passes
  have went := h.beneath.enter entered
  obtain ⟨hi, fits, _⟩ := h.beneath.fits.enter entered
  obtain ⟨hm', fits', goes⟩ := passes.goes hi fits
  have agrees := fits'.agrees move nofun
  have frames := h.frames
  have length := occupies.frames
  have whole : m'.frames = m'.own :: m'.frames.tail := by
    cases frames : m'.frames with
    | nil => exact absurd frames hm'
    | cons f rest => simp [own, frames]
  refine ⟨by omega, ?_, ?_, occupies.most⟩
  · rw [whole, List.reverse_cons]
    refine (h.ancestors.congr ?_).part occupies.node occupies.live agrees
    rw [List.map_reverse, List.map_reverse, occupies.outer]
  · rcases goes with ⟨deeper, waits⟩ | ⟨id, g, params, waits, found, callee⟩ | none
    · rcases went with none | ⟨resumed, same, j, g, inFlight⟩
      · exact .nothing (deeper.trans none)
      · have again := inFlight.inner (waits ▸ agrees)
        rw [← deeper] at same again
        rw [← passes.inside.length_frames] at same
        exact .own resumed same again
    · rcases agrees with waits' | ⟨id', g', waits', found', rfl⟩
      · cases waits.symm.trans waits'
      · cases waits.symm.trans waits'
        cases found.symm.trans found'
        exact .entered found rfl callee
    · exact .nothing none

theorem turned : m.Occupies depth i (turn (exec p room) p room i m').2 := by
  have occupies := h.occupies entered passes
  obtain ⟨hi, fits, _⟩ := h.beneath.fits.enter entered
  obtain ⟨hm', fits', _⟩ := passes.goes hi fits
  have turn := Turn.executes_iff.2 (rfl : turn (exec p room) p room i m' = _)
  have inside := turn.inside fun _ _ _ hr => hr.around
  obtain ⟨_, kind⟩ := inside.own_kind hm'
  have frames := h.frames
  have most := h.most
  have length := inside.length_frames
  have same := occupies.frames
  have beneath := turn.deeper_le (fun _ _ _ hr => hr.deeper_le)
    (passes.deeper_le (Machine.deeper_le_of_enter? entered (by omega)))
  refine ⟨length.trans same, (congrArg Prod.fst kind).trans occupies.node,
    (congrArg (fun k => k.2.2) kind).trans occupies.live, inside.outer.trans occupies.outer, by omega⟩

theorem places {g : Function} (move : i.move p m'.own = .enter g) (params : List Variable) :
    ∃ n, (m'.modifyFrame ({ · with operands := [] })).placeCallee? g.body.id params = some n := by
  obtain ⟨hi, fits, _⟩ := h.beneath.fits.enter entered
  obtain ⟨_, fits', _⟩ := passes.goes hi fits
  have waits := (fits'.agrees move nofun).1
  have none : m'.deeper = [] := fits'.eq_nil_of_atRest (by rw [waits]; trivial)
  unfold placeCallee?
  rw [deeper_modifyFrame, none]
  exact ⟨_, rfl⟩

end

end Machine.Surrounds

theorem Visits.surrounds {m₀ : Machine} (h : Visits p depth root m₀ room i m)
    (start : m₀.Surrounds p depth root left again depth root) : m.Surrounds p depth root left again room i := by
  induction h with
  | root => exact start
  | part _ entered passes move ih => exact ih.part entered passes move

theorem Visits.around {m₀ : Machine} (h : Visits p depth root m₀ room i m) :
    m₀.frames.map Frame.bare <:+ m.frames.map Frame.bare := by
  induction h with
  | root => exact List.suffix_refl _
  | @part _ _ _ m inside m' _ _ entered passes _ ih =>
    obtain ⟨f, deeper, _, _, rfl⟩ := m.enter?_frames entered
    have outer : m'.frames.tail.map Frame.bare = m.frames.map Frame.bare := passes.inside.outer
    refine ih.trans ?_
    rw [← outer]
    exact (List.tail_suffix _).map _

end Tickwise
