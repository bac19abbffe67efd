import Tickwise.Proofs.Compile.Trees
import Tickwise.Proofs.Machine.InFlight
set_option autoImplicit false

/-!
# Where faults are raised

A fault is raised at the range of an instruction, or is one that a `try` remembers. So the ranges of all
faults are of the kind that those of the program are.
-/
namespace Tickwise

open Exec

variable {P : Span → Prop}

namespace Exec

variable {α β : Type}

def Raises (P : Span → Prop) (c : Exec α) : Prop := ∀ m e, (c m).1 = .error e → e.Blames P

theorem Raises.seq {c : Exec α} {f : α → Exec β} (first : Raises P c)
    (second : ∀ a m m', c m = (.ok a, m') → Raises P (f a)) : Raises P (c >>= f) := by
  intro m e raised
  rw [bind_apply] at raised
  generalize hc : c m = r at raised
  obtain ⟨_ | a, m'⟩ := r
  · cases raised
    exact first m _ (by rw [hc])
  · exact second a m m' hc m' e raised

theorem Raises.bind {c : Exec α} {f : α → Exec β} (first : Raises P c) (second : ∀ a, Raises P (f a)) :
    Raises P (c >>= f) :=
  first.seq fun a _ _ _ => second a

theorem Plain.raises {c : Exec α} (h : Plain P c) : Raises P c := by
  induction h with
  | throw _ blames =>
    intro m e raised
    cases raised
    exact blames
  | seq _ _ first second => exact first.seq second
  | _ =>
    intro m e raised
    cases raised

theorem raises_enterCallee {span : Span} (hp : P span) (f : Function) (room : Nat) :
    Raises P (enterCallee span f room) := by
  refine .bind Plain.operands.raises fun values => .bind (Plain.setOperands []).raises fun _ => ?_
  refine .bind (Plain.checkCrash hp _ _).raises fun params => ?_
  split
  · exact (Plain.faultAt hp _).raises
  · refine .bind (fun m e raised => ?_) fun _ => (Plain.setPosition 2 0).raises
    unfold placeCallee at raised
    split at raised
    · cases raised
    · exact (Plain.faultAt hp .notRestored).raises m e raised

theorem raises_callNative {span : Span} (hp : P span) (id : NativeId) (f : NativeFn) (ret : Ty) :
    Raises P (callNative span id f ret) := by
  intro m e raised
  rw [callNative_apply] at raised
  dsimp only at raised
  split at raised
  · exact (Plain.faultAt hp .stopped).raises _ e raised
  · generalize m.reply f _ = r at raised
    cases hr : r.outcome with
    | done v =>
      rw [hr] at raised
      exact (Plain.convert hp v ret).raises _ e raised
    | suspend =>
      rw [hr] at raised
      cases raised
      nofun
    | fault code =>
      rw [hr] at raised
      exact (Plain.faultAt hp (.native code)).raises _ e raised
    | crashed c =>
      rw [hr] at raised
      cases raised
      nofun

end Exec

namespace Frame.Remembers

variable {form : Form Instr} {f g : Frame Variable}

theorem congr (h : f.Remembers P form) (same : f.bare = g.bare) : g.Remembers P form := by
  intro body catches try_ going
  have state := congrArg Frame.state same
  have operands := congrArg Frame.operands same
  change f.state = g.state at state
  change f.operands = g.operands at operands
  rw [← operands]
  exact h body catches try_ (state ▸ going)

theorem of_start (start : f.state = 0) : f.Remembers P form := fun _ _ _ going => absurd start going

end Frame.Remembers

theorem Move.remembers_ofTry {body c : Instr} {cs : List (Catch Instr)} {f : Frame Variable}
    {follow : Except Interrupt Variable → Exec (Option Variable)} {o : Except Interrupt Variable}
    {m m' : Machine} (move : Move.ofTry body cs f = .run c follow) (framed : m.frames ≠ [])
    (own : m.own.bare = f.bare) (kept : f.state ≠ 0 → P (operandsFault f.operands).span)
    (blames : ∀ e, o = .error e → e.Blames P) (ended : follow o m = (.ok none, m')) :
    P (operandsFault m'.own.operands).span := by
  have operands := congrArg Frame.operands own
  change m.own.operands = f.operands at operands
  have moved (g : Frame Variable → Frame Variable) (same : ∀ f, (g f).operands = f.operands)
      (going : f.state ≠ 0) : P (operandsFault (m.modifyFrame g).own.operands).span := by
    rw [Machine.own_modifyFrame framed, same, operands]
    exact kept going
  unfold Move.ofTry at move
  split at move
  case isTrue =>
    cases move
    rcases o with (_ | _ | _ | _ | error) | v
    case ok => exact (finish_ne_none void m m' ended).elim
    case error.fault =>
      unfold attempt at ended
      dsimp only at ended
      split at ended
      · cases ended
      · cases ended
        rw [Machine.own_modifyFrame, Machine.own_modifyFrame framed]
        · exact blames _ rfl error rfl
        · obtain ⟨_ | _, _⟩ := m
          · exact absurd rfl framed
          · exact List.cons_ne_nil _ _
    all_goals cases ended
  case isFalse going =>
    split at move
    case h_1 => cases move
    case h_2 code _ =>
      split at move
      case h_1 => cases move
      case h_2 clause _ =>
        split at move
        case isTrue =>
          cases move
          rcases o with e | v
          · cases ended
          · exact (finish_ne_none void m m' ended).elim
        case isFalse =>
          cases move
          rcases o with e | v
          · cases ended
          · obtain ⟨caught, m₁, checked, ended⟩ := ok_of_bind ended
            obtain rfl : m₁ = m := by
              unfold catches at checked
              split at checked
              · exact (ok_of_check checked).2
              · obtain ⟨n, m₂, checked, rest⟩ := ok_of_bind checked
                cases rest
                exact (ok_of_check checked).2
            cases caught with
            | true => cases ended; exact moved _ (fun _ => rfl) going
            | false => cases ended; exact moved _ (fun _ => rfl) going

theorem Move.ofTry_cases (body : Instr) (cs : List (Catch Instr)) (f : Frame Variable) :
    (∃ c follow, Move.ofTry body cs f = .run c follow) ∨
      ∃ action, Move.ofTry body cs f = .act action ∧ ∀ m, ∃ error, action m = (.error (.fault error), m) := by
  unfold Move.ofTry
  split
  · exact .inl ⟨_, _, rfl⟩
  · split
    · exact .inr ⟨_, rfl, fun m => ⟨_, rfl⟩⟩
    · split
      · exact .inr ⟨_, rfl, fun m => ⟨_, rfl⟩⟩
      · split <;> exact .inl ⟨_, _, rfl⟩

abbrev Remembering (p : Program) (P : Span → Prop) : Instr → List (Frame Variable) → Prop :=
  Along p fun i f => f.Remembers P i.form

/-- An execution ends with no fault but at a range of a kind, and the frames that it leaves behind remember no
other. -/
structure Blaming (P : Span → Prop) (p : Program) (i : Instr) (r : Result Variable) : Prop where
  interrupt : ∀ e, r.1 = .error e → e.Blames P
  remembers : r.1 = .error .suspended → Remembering p P i r.2.deeper

theorem Instr.Within.ranged {n : Nat} {i : Instr} (h : i.Within P n) : i.Ranged P :=
  ⟨h.span, fun _ hc => (h.part hc).span⟩

theorem Instr.Within.inner {n : Nat} {p : Program} {i c : Instr} {f : Frame Variable}
    {follow : Except Interrupt Variable → Exec (Option Variable)} (h : i.Within P n)
    (functions : ∀ g ∈ p.functions, g.body.Within P n)
    (agrees : (Move.run c follow).Agrees p i.form (i.waiting f.state f.index)) : c.Within P n := by
  rcases agrees with waits | ⟨id, g, _, found, rfl⟩
  · exact h.part (Form.mem_children_of_waiting waits)
  · exact functions g (List.mem_of_getElem? found)

/-- What executes one level deeper blames ranges of a kind only. -/
structure Beneath (P : Span → Prop) (n : Nat) (p : Program)
    (run : Instr → Machine → Result Variable → Prop) : Prop where
  around : ∀ c m r, run c m r → m.Around r.2
  leaves : ∀ c m r, run c m r → Fits p c m.deeper → Leaves p c m r
  blaming : ∀ c m r, run c m r → c.Within P n → Fits p c m.deeper → Remembering p P c m.deeper →
    Blaming P p c r

/-- An instruction executes in frames that remember faults at ranges of a kind only. -/
structure Machine.Recalls (P : Span → Prop) (n : Nat) (p : Program) (i : Instr) (m : Machine) : Prop where
  within : i.Within P n
  framed : m.frames ≠ []
  fits : Fits p i (m.own :: m.deeper)
  remembers : Remembering p P i (m.own :: m.deeper)

variable {run : Instr → Machine → Result Variable → Prop} {p : Program} {n room : Nat} {i : Instr}
  {m : Machine}

theorem Machine.Recalls.inner {c : Instr} {follow : Except Interrupt Variable → Exec (Option Variable)}
    {r : Result Variable} (recalls : m.Recalls P n p i) (functions : ∀ g ∈ p.functions, g.body.Within P n)
    (below : Beneath P n p run) (move : i.move p m.own = .run c follow) (inner : run c m r) :
    (Move.run c follow).Agrees p i.form (i.waiting m.own.state m.own.index) ∧ Leaves p c m r ∧
      Blaming P p c r := by
  have agrees := recalls.fits.agrees move nofun
  have fits := recalls.fits.inner agrees
  exact ⟨agrees, below.leaves _ _ _ inner fits, below.blaming _ _ _ inner
    (recalls.within.inner functions agrees) fits (recalls.remembers.inner agrees)⟩

theorem Turn.remembers_own {r : Result (Option Variable)} (h : Turn run p room i m r)
    (recalls : m.Recalls P n p i) (functions : ∀ g ∈ p.functions, g.body.Within P n)
    (below : Beneath P n p run) (going : r.1 = .ok none ∨ r.1 = .error .suspended) :
    r.2.own.Remembers P i.form := by
  intro body cs form state
  have plain := i.move_isPlain p m.own
  have try_ := Instr.move_tryCatch form p m.own
  have kept : m.own.Remembers P i.form := recalls.remembers.1
  cases h with
  | @child c follow o m₁ move inner =>
    have around := below.around _ _ _ inner
    obtain ⟨_, _, blaming⟩ := recalls.inner functions below move inner
    rw [move] at plain try_
    by_cases ho : o = .error .suspended
    · subst ho
      rw [plain.1] at state ⊢
      exact kept.congr around.own.symm body cs form state
    · have running := (plain.2 o ho fun _ _ _ _ => trivial).ne_suspended m₁
      have ended : follow o m₁ = (.ok none, (follow o m₁).2) := Prod.ext (going.resolve_right running) rfl
      exact Move.remembers_ofTry try_.symm (around.frames_ne_nil recalls.framed) around.own
        (kept body cs form) blaming.interrupt ended
  | @act action move =>
    obtain ⟨c, follow, other⟩ | ⟨action', acts, raises⟩ := Move.ofTry_cases body cs m.own
    · cases other.symm.trans (try_.symm.trans move)
    · cases acts.symm.trans (try_.symm.trans move)
      obtain ⟨error, raised⟩ := raises m
      rw [raised] at going
      rcases going with going | going <;> cases going
  | _ move =>
    obtain ⟨c, follow, other⟩ | ⟨action', other, _⟩ := Move.ofTry_cases body cs m.own <;>
      cases other.symm.trans (try_.symm.trans move)

theorem Turn.blames {r : Result (Option Variable)} (h : Turn run p room i m r)
    (recalls : m.Recalls P n p i) (functions : ∀ g ∈ p.functions, g.body.Within P n)
    (below : Beneath P n p run) {e : Interrupt} (raised : r.1 = .error e) : e.Blames P := by
  have own := recalls.within.span
  have plain := recalls.within.ranged.move_isPlain recalls.remembers.1 p
  cases h with
  | @child c follow o m₁ move inner =>
    obtain ⟨_, _, blaming⟩ := recalls.inner functions below move inner
    rw [move] at plain
    by_cases ho : o = .error .suspended
    · subst ho
      rw [plain.1] at raised
      cases raised
      nofun
    · exact (plain.2 o ho blaming.interrupt).raises m₁ e raised
  | pass move =>
    rw [move] at plain
    rw [pass_apply] at raised
    split at raised
    · cases raised
      intro error same
      cases same
      exact plain
    · split at raised
      · cases raised
        nofun
      · cases raised
  | enter move =>
    exact (Raises.bind (raises_enterCallee own _ _) fun _ => (Plain.pure none).raises) m e raised
  | invoke move =>
    exact (Raises.bind (raises_callNative own _ _ _) fun v => (Plain.pure (some v)).raises) m e raised
  | act move =>
    rw [move] at plain
    exact Plain.raises plain m e raised

theorem Turn.remembers {r : Result (Option Variable)} (h : Turn run p room i m r)
    (recalls : m.Recalls P n p i) (functions : ∀ g ∈ p.functions, g.body.Within P n)
    (below : Beneath P n p run) (going : r.1 = .ok none ∨ r.1 = .error .suspended) :
    Remembering p P i (r.2.own :: r.2.deeper) := by
  have own := h.remembers_own recalls functions below going
  have alone (none : r.2.deeper = []) : Remembering p P i (r.2.own :: r.2.deeper) := by
    rw [none]
    exact .single own
  obtain ⟨o, m'⟩ := r
  rcases going with more | suspended
  · cases more
    rcases h.goes below.around below.leaves recalls.framed recalls.fits with
      ⟨_, same, opened⟩ | ⟨id, g, params, waits, found, new⟩ | ⟨none, _⟩
    · obtain ⟨_, beneath⟩ := recalls.remembers
      refine ⟨own, ?_⟩
      rw [opened, same]
      exact beneath
    · refine ⟨own, ?_⟩
      rw [waits, new]
      exact fun _ _ => .single (.of_start rfl)
    · exact alone none
  · cases suspended
    rcases h.suspended below.around recalls.framed recalls.fits with
      ⟨none, _⟩ | ⟨c, follow, inner, move, same⟩
    · exact alone none
    · obtain ⟨agrees, _, blaming⟩ := recalls.inner functions below move inner
      exact .outer own (same ▸ agrees) (blaming.remembers rfl)

theorem Turns.blaming {r : Result Variable} (h : Turns run p room i m r) (recalls : m.Recalls P n p i)
    (functions : ∀ g ∈ p.functions, g.body.Within P n) (below : Beneath P n p run) :
    (∀ e, r.1 = .error e → e.Blames P) ∧
      (r.1 = .error .suspended → Remembering p P i (r.2.own :: r.2.deeper)) := by
  induction h with
  | done last => exact ⟨nofun, nofun⟩
  | left last =>
    refine ⟨fun e raised => ?_, fun suspended => ?_⟩
    · cases raised
      exact last.blames recalls functions below rfl
    · cases suspended
      exact last.remembers recalls functions below (.inr rfl)
  | next first _ ih =>
    refine ih ⟨recalls.within, ((first.inside below.around).own_kind recalls.framed).1, ?_, ?_⟩
    · exact first.fits below.around below.leaves recalls.framed recalls.fits
    · exact first.remembers recalls functions below (.inl rfl)

theorem Executes.blaming {r : Result Variable} (h : Executes p room i m r)
    (functions : ∀ g ∈ p.functions, g.body.Within P n) (hi : i.Within P n) (fits : Fits p i m.deeper)
    (remembers : Remembering p P i m.deeper) : Blaming P p i r := by
  revert hi fits remembers
  refine h.induction (Q := fun _ i m r => i.Within P n → Fits p i m.deeper → Remembering p P i m.deeper →
    Blaming P p i r) (fun {_ i} m _ hi _ _ => ?_) (fun {_ i} m fault hi _ _ => ?_)
    (fun {room i m inside left} _ entered deeper turns hi fits remembers => ?_)
  · have plain := Plain.leaf hi.span
    have running := (Plain.leaf (i := i) trivial).ne_suspended m
    rw [settle_of_running running]
    exact ⟨plain.raises m, fun suspended => absurd suspended running⟩
  · refine ⟨fun e raised => ?_, nofun⟩
    exact (Plain.faultAt (α := Variable) hi.span fault).raises m e raised
  · obtain ⟨framed, fits, _⟩ := fits.enter entered
    have inside_remembers : Remembering p P i (inside.own :: inside.deeper) := by
      rcases Machine.enter?_cases entered with rfl | ⟨f, rest, some, _, _, rfl⟩
      · exact .single (.of_start rfl)
      · rw [some] at remembers
        exact remembers
    have below : Beneath P n p (Executes p room) :=
      ⟨fun _ _ _ hr => hr.around, fun _ _ _ hr fits => hr.leaves fits, deeper⟩
    obtain ⟨interrupt, suspended⟩ := turns.blaming ⟨hi, framed, fits, inside_remembers⟩ functions below
    obtain ⟨o, m'⟩ := left
    by_cases ho : o = .error .suspended
    · subst ho
      exact ⟨interrupt, suspended⟩
    · rw [leaveFrame_of_running ho]
      exact ⟨interrupt, fun he => absurd he ho⟩

end Tickwise
