import Tickwise.Proofs.Sight.Instructions
set_option autoImplicit false

/-!
# Positions and declarations

From each position of a frame an instruction goes on to one where what is surely declared was so before, or is
declared by the part that ended meanwhile.
-/
namespace Tickwise

open Exec

/-- Forms that go through a list of declarations from the first one on. -/
def Form.isSeries {ι : Type} : Form ι → Bool
  | .declList _ | .forLoop .. => true
  | _ => false

/-- The frame of a call has the values of the arguments in front of its position. -/
structure Frame.Gathers (args : List Instr) (f : Frame Variable) : Prop where
  index : f.state = 0 → f.index = f.operands.length
  within : f.state = 0 → f.operands.length ≤ args.length
  all : f.state = 1 → f.operands.length = args.length

/-- The instruction goes on in its frame from `f` to `g`, with `D` declared by the part that ended meanwhile. -/
structure Instr.Onward (i : Instr) (f : Frame Variable) (D : List VarId) (g : Frame Variable) : Prop where
  sure : (i.form.isSeries = true → 0 ≤ f.index) → ∀ x, i.Sure g.state g.index x →
    i.Sure f.state f.index x ∨ x ∈ D
  scope : i.declares ≠ [] → g.scope = f.scope
  from_zero : i.form.isSeries = true → 0 ≤ f.index → 0 ≤ g.index
  gathers : ∀ {id args ret}, i.form = .call (.user id) args ret → f.Gathers args → g.Gathers args

namespace Exec

variable {α : Type}

/-- If a computation leaves more to do, then in a frame as `P` says. `f` is the frame before. -/
def GoesOn (f : Frame Variable) (P : Frame Variable → Prop) (c : Exec (Option Variable)) : Prop :=
  ∀ m m' : Machine, m.frames ≠ [] → m.own.bare = f.bare → c m = (.ok none, m') → P m'.own.bare

namespace GoesOn

variable {f : Frame Variable} {P : Frame Variable → Prop}

theorem throw (e : Interrupt) : GoesOn f P (throw e) := nofun

theorem finish (c : Exec Variable) : GoesOn f P (finish c) := fun m m' _ _ h => absurd h (finish_ne_none c m m')

theorem modify {g : Frame Variable → Frame Variable} (h : ∀ own, own.bare = f.bare → P (g own).bare) :
    GoesOn f P (goOn (modify (·.modifyFrame g))) := by
  intro m m' hm same hc
  cases hc
  rw [Machine.own_modifyFrame hm]
  exact h m.own same

theorem setPosition {state : Nat} {index : Int} (h : P { f.bare with state := state, index := index }) :
    GoesOn f P (goOn (setPosition state index)) :=
  modify fun own same => by
    have moved := congrArg (fun b : Frame Variable => { b with state := state, index := index }) same
    exact (congrArg P moved).mpr h

theorem nextIndex {state : Nat} (h : P { f.bare with state := state, index := f.index + 1 }) :
    GoesOn f P (goOn (nextIndex state)) :=
  modify fun own same => by
    have moved := congrArg (fun b : Frame Variable => { b with state := state, index := b.index + 1 }) same
    exact (congrArg P moved).mpr h

theorem push {v : Variable}
    (h : P { f.bare with operands := f.operands ++ [v], state := 0, index := f.index + 1 }) :
    GoesOn f P (goOn do
      pushOperand v
      Exec.nextIndex 0) := by
  intro m m' hm same hc
  obtain ⟨_ | ⟨own, fs⟩, _⟩ := m
  · exact absurd rfl hm
  · cases hc
    have moved := congrArg (fun b : Frame Variable =>
      { b with operands := b.operands ++ [v], state := 0, index := b.index + 1 }) same
    exact (congrArg P moved).mpr h

theorem bind {c : Exec α} {g : α → Exec (Option Variable)} (hc : ∀ m, (c m).2 = m)
    (hg : ∀ a, GoesOn f P (g a)) : GoesOn f P (c >>= g) := by
  intro m m' hm same h
  have keeps := hc m
  rw [bind_apply] at h
  generalize c m = r at h keeps
  obtain ⟨_ | a, m₁⟩ := r
  · cases h
  · subst keeps
    exact hg a _ m' hm same h

theorem ite {c d : Exec (Option Variable)} {q : Prop} [Decidable q] (hc : GoesOn f P c) (hd : GoesOn f P d) :
    GoesOn f P (if q then c else d) := by
  split
  · exact hc
  · exact hd

theorem absorb_error (label : Option String) {isLoop : Bool} {next : Exec Unit} (e : Interrupt)
    (h : isLoop = true → GoesOn f P (goOn next)) : GoesOn f P (absorb label isLoop next (.error e)) := by
  cases e with
  | breakTo target => exact ite (finish _) (throw _)
  | continueTo target =>
    cases isLoop with
    | true => exact ite (h rfl) (throw _)
    | false => exact throw _
  | _ => exact throw _

end GoesOn
end Exec

namespace Move

def Onward (i : Instr) (f : Frame Variable) : Move → Prop
  | run c follow => (∀ v, GoesOn f (i.Onward f c.declares) (follow (.ok v))) ∧
      ∀ e, GoesOn f (i.Onward f []) (follow (.error e))
  | pass _ state index => i.Onward f [] { f with state := state, index := index }
  | act action => GoesOn f (i.Onward f []) action
  | _ => True

variable {i c : Instr} {f : Frame Variable}

theorem Onward.eval {follow : Variable → Exec (Option Variable)}
    (h : ∀ v, GoesOn f (i.Onward f c.declares) (follow v)) : (Move.eval c follow).Onward i f :=
  ⟨h, fun e => .throw e⟩

theorem Onward.test {follow : Bool → Exec (Option Variable)}
    (h : ∀ b, GoesOn f (i.Onward f c.declares) (follow b)) : (Move.test c follow).Onward i f :=
  eval fun _ => .bind (check_snd _ _) h

theorem Onward.sequence {items : List Instr} {state : Nat} {afterwards : Exec (Option Variable)}
    (next : ∀ c, itemAt? items f.index = some c →
      i.Onward f c.declares { f.bare with state := state, index := f.index + 1 })
    (h : itemAt? items f.index = none → GoesOn f (i.Onward f []) afterwards) :
    (Move.sequence items f.index state afterwards).Onward i f := by
  unfold Move.sequence
  split
  case h_1 c hc => exact eval fun _ => .nextIndex (next c hc)
  case h_2 hc => exact h hc

theorem Onward.collect {es : List Instr} {afterwards : Exec (Option Variable)}
    (next : ∀ c v, itemAt? es f.index = some c →
      i.Onward f c.declares { f.bare with operands := f.operands ++ [v], state := 0, index := f.index + 1 })
    (h : itemAt? es f.index = none → GoesOn f (i.Onward f []) afterwards) :
    (Move.collect es f.index afterwards).Onward i f := by
  unfold Move.collect
  split
  case h_1 c hc => exact eval fun v => .push (next c v hc)
  case h_2 hc => exact h hc

end Move

namespace Instr

variable {n : NodeId} {span : Span} {f g : Frame Variable} {D : List VarId} {i c : Instr} {items : List Instr}
  {index : Int} {x : VarId}

/-- Where nothing is declared and no arguments are gathered, there is nothing to say. -/
theorem Onward.free (unscoped : ∀ state index, i.scopeAt state index = []) (bare : i.declares = [])
    (series : i.form.isSeries = false) (call : ∀ id args ret, i.form ≠ .call (.user id) args ret) :
    i.Onward f D g := by
  refine ⟨fun _ x h => ?_, fun h => absurd bare h, fun h => ?_, fun h => absurd h (call _ _ _)⟩
  · have declared := h.1
    rw [unscoped] at declared
    cases declared
  · rw [series] at h
    cases h

theorem onward_of_free (unscoped : ∀ state index, i.scopeAt state index = []) (bare : i.declares = [])
    (series : i.form.isSeries = false) (call : ∀ id args ret, i.form ≠ .call (.user id) args ret)
    (move : Move) : move.Onward i f := by
  have free {D : List VarId} {g : Frame Variable} : i.Onward f D g := .free unscoped bare series call
  cases move with
  | run c follow => exact ⟨fun _ _ _ _ _ _ => free, fun _ _ _ _ _ _ => free⟩
  | pass => exact free
  | act => exact fun _ _ _ _ _ => free
  | _ => trivial

theorem Onward.ofNative {id : NativeId} {args : List Instr} {ret : Ty} (form : i.form = .call (.native id) args ret) :
    i.Onward f D g := by
  obtain ⟨_, _, _⟩ := i
  cases form
  exact .free (fun _ _ => rfl) rfl rfl fun _ _ _ h => by cases h

theorem Onward.of_bare (h : i.Onward f D g.bare) : i.Onward f D g :=
  ⟨h.sure, h.scope, h.from_zero, fun form before =>
    ⟨(h.gathers form before).index, (h.gathers form before).within, (h.gathers form before).all⟩⟩

theorem Onward.opened (scope : i.form.isScope = true) : i.Onward f D { f with scope := true } := by
  have bare : i.declares = [] := by
    obtain ⟨_, _, form⟩ := i
    cases form with
    | declare => cases scope
    | declList => cases scope
    | _ => rfl
  exact ⟨fun _ _ => .inl, fun h => absurd bare h, fun _ h => h, fun _ before =>
    ⟨before.index, before.within, before.all⟩⟩

theorem Onward.entered {id : FunctionId} {args : List Instr} {ret : Ty} (form : i.form = .call (.user id) args ret)
    (state : g.state = 2) : i.Onward f D g := by
  obtain ⟨_, _, _⟩ := i
  cases form
  refine ⟨fun _ _ h => absurd h.1 List.not_mem_nil, fun h => absurd rfl h, nofun, fun _ _ => ?_⟩
  exact ⟨by rw [state]; nofun, by rw [state]; nofun, by rw [state]; nofun⟩

theorem state_of_enter {p : Program} {callee : Function} {id : FunctionId} {args : List Instr} {ret : Ty}
    (form : i.form = .call (.user id) args ret) (move : i.move p f = .enter callee) : f.state = 1 := by
  by_contra other
  unfold Instr.move at move
  rw [form] at move
  change Move.ofCall p i.span (.user id) args ret f = .enter callee at move
  unfold Move.ofCall at move
  split at move
  case isTrue =>
    unfold Move.collect at move
    split at move <;> cases move
  case isFalse =>
    dsimp only at move
    split at move <;> cases move

theorem front_next (h : itemAt? items index = some c) :
    front items (index + 1).toNat = front items index.toNat ++ c.declares := by
  obtain ⟨from_zero, item⟩ := getElem?_of_itemAt? h
  rw [Int.toNat_add from_zero Int.one_nonneg]
  exact front_succ item

theorem length_le_of_itemAt? (h : itemAt? items index = none) (from_zero : 0 ≤ index) :
    items.length ≤ index.toNat := by
  unfold itemAt? at h
  rw [if_neg (Int.not_lt.2 from_zero)] at h
  exact List.getElem?_eq_none_iff.1 h

theorem onward_ofBlock (body : List Instr) : (Move.ofBlock body f).Onward (.mk n span (.block body)) f := by
  unfold Move.ofBlock
  split
  case h_1 => exact GoesOn.finish _
  case h_2 s item =>
    split
    case isTrue => exact ⟨fun _ _ h => .inl h, fun h => absurd rfl h, nofun, nofun⟩
    case isFalse =>
      refine .eval fun _ => .nextIndex ⟨fun _ x h => ?_, fun h => absurd rfl h, nofun, nofun⟩
      have declared : x ∈ front body (f.index + 1).toNat := h.1
      rw [front_next item] at declared
      exact (List.mem_append.1 declared).imp (fun before => ⟨before, not_false⟩) fun new => new

theorem onward_ofDeclList (items : List Instr) :
    (Move.sequence items f.index 0 (finish void)).Onward (.mk n span (.declList items)) f := by
  refine .sequence (fun c item => ⟨fun _ x h => ?_, fun _ => rfl, fun _ => Int.le_add_one, nofun⟩) fun _ => .finish _
  have declared : x ∈ front items (f.index + 1).toNat := h.1
  rw [front_next item] at declared
  exact (List.mem_append.1 declared).imp (fun before => ⟨before, not_false⟩) fun new => new

theorem onward_ofDeclare (var : VarId) (name : String) (ty : Ty) (dims : List Instr) (init : Option Instr) :
    (Move.ofDeclare span var name ty dims init f).Onward (.mk n span (.declare var name ty dims init)) f := by
  have same {D : List VarId} {g : Frame Variable} (scope : g.scope = f.scope) :
      (Instr.mk n span (.declare var name ty dims init)).Onward f D g :=
    ⟨fun _ _ h => absurd h.1 List.not_mem_nil, fun _ => scope, nofun, nofun⟩
  unfold Move.ofDeclare
  split
  case isTrue => exact .collect (fun _ _ _ => same rfl) fun _ => .setPosition (same rfl)
  case isFalse =>
    cases init with
    | some init => exact .eval fun _ => .finish _
    | none => exact GoesOn.finish _

section

variable {label : Option String} {init : List Instr} {cond : Option Instr} {next : List Instr} {body : Instr}

theorem scopeAt_forLoop {state : Nat} (started : state ≠ 0) :
    (Instr.mk n span (.forLoop label init cond next body)).scopeAt state index = front init init.length := by
  cases state with
  | zero => exact absurd rfl started
  | succ => rfl

theorem Onward.started (going : f.state ≠ 0) (still : g.state ≠ 0) (from_zero : 0 ≤ f.index → 0 ≤ g.index) :
    (Instr.mk n span (.forLoop label init cond next body)).Onward f D g := by
  refine ⟨fun _ x h => .inl ⟨?_, not_false⟩, fun h => absurd rfl h, fun _ => from_zero, nofun⟩
  rw [scopeAt_forLoop going]
  rw [← scopeAt_forLoop still]
  exact h.1

theorem onward_ofFor : (Move.ofFor span label init cond next body f).Onward
    (.mk n span (.forLoop label init cond next body)) f := by
  have zero (_ : 0 ≤ f.index) : (0 : Int) ≤ 0 := Int.le_refl 0
  unfold Move.ofFor
  split
  case h_1 start =>
    refine .sequence (fun c item =>
      ⟨fun _ x h => ?_, fun h => absurd rfl h, fun _ => Int.le_add_one, nofun⟩) fun ended => .setPosition
      ⟨fun from_zero x h => ?_, fun h => absurd rfl h, fun _ => zero, nofun⟩
    · have declared : x ∈ front init (f.index + 1).toNat := h.1
      rw [front_next item] at declared
      rw [start]
      exact (List.mem_append.1 declared).imp (fun before => ⟨before, not_false⟩) fun new => new
    · have all : x ∈ front init init.length := h.1
      rw [start]
      exact .inl ⟨front_mono (length_le_of_itemAt? ended (from_zero rfl)) all, not_false⟩
  case h_2 testing =>
    have going : f.state ≠ 0 := by rw [testing]; decide
    cases cond with
    | some cond => exact .test fun _ => .ite (.setPosition (.started going nofun zero)) (.finish _)
    | none => exact GoesOn.setPosition (.started going nofun zero)
  case h_3 passing => exact Onward.started (by rw [passing]; decide) nofun zero
  case h_4 executing =>
    have going : f.state ≠ 0 := by rw [executing]; decide
    exact ⟨fun _ => GoesOn.setPosition (.started going nofun zero), fun e =>
      .absorb_error _ e fun _ => .setPosition (.started going nofun zero)⟩
  case h_5 going _ _ _ =>
    exact .sequence (fun _ _ => .started going nofun Int.le_add_one) fun _ => .setPosition (.started going nofun zero)

end

theorem onward_ofSwitch (label : Option String) (value : Instr) (cases : List Case) (body : List Instr) :
    (Move.ofSwitch span label value cases body f).Onward (.mk n span (.switch label value cases body)) f := by
  unfold Move.ofSwitch
  split
  case isTrue start =>
    refine .eval fun v => .bind (check_snd _ _) fun w => ?_
    cases chosen : Exec.chooseCase cases w with
    | none => exact .finish _
    | some c =>
      refine .setPosition ⟨fun _ x h => ?_, fun h => absurd rfl h, nofun, nofun⟩
      have known : c ∈ cases := by
        unfold Exec.chooseCase at chosen
        rcases Option.or_eq_some_iff.1 chosen with found | ⟨_, found⟩
        · exact List.mem_of_find?_eq_some found
        · exact List.mem_of_find?_eq_some found
      -- At the label itself all that is declared in front of it may have been missed.
      exact absurd ⟨c, known, Nat.le_refl _, h.1⟩ h.2
  case isFalse going =>
    obtain ⟨k, hk⟩ := Nat.exists_eq_succ_of_ne_zero going
    split
    case h_1 => exact GoesOn.finish _
    case h_2 s item =>
      split
      case isTrue =>
        refine ⟨fun _ x h => .inl ?_, fun h => absurd rfl h, nofun, nofun⟩
        rw [hk]
        exact h
      case isFalse =>
        refine ⟨fun _ => GoesOn.nextIndex ⟨fun _ x h => ?_, fun h => absurd rfl h, nofun, nofun⟩, fun e =>
          .absorb_error _ e nofun⟩
        have declared : x ∈ front body (f.index + 1).toNat := h.1
        rw [front_next item] at declared
        rw [hk]
        refine (List.mem_append.1 declared).imp (fun before => ⟨before, ?_⟩) fun new => new
        rintro ⟨c, hc, le, missed⟩
        refine h.2 ⟨c, hc, Nat.le_trans le (Int.toNat_le_toNat (Int.le_add_one (Int.le_refl _))), missed⟩

theorem onward_ofCall (p : Program) (callee : Callee) (args : List Instr) (ret : Ty) :
    (Move.ofCall p span callee args ret f).Onward (.mk n span (.call callee args ret)) f := by
  have gathers {D : List VarId} {g : Frame Variable} (h : f.Gathers args → g.Gathers args) :
      (Instr.mk n span (.call callee args ret)).Onward f D g := by
    refine ⟨fun _ _ h => absurd h.1 List.not_mem_nil, fun h => absurd rfl h, nofun, fun same => ?_⟩
    cases same
    exact h
  unfold Move.ofCall
  split
  case isTrue start =>
    refine .collect (fun c v item => gathers fun h => ⟨fun _ => ?_, fun _ => ?_, nofun⟩) fun ended =>
      .setPosition (gathers fun h => ⟨nofun, nofun, fun _ => ?_⟩)
    · have index := h.index start
      simp only [List.length_append, List.length_singleton]
      omega
    · have index := h.index start
      obtain ⟨_, item⟩ := getElem?_of_itemAt? item
      have inside := (List.getElem?_eq_some_iff.1 item).1
      simp only [List.length_append, List.length_singleton]
      omega
    · have index := h.index start
      have within := h.within start
      have all := length_le_of_itemAt? ended (by omega)
      change f.operands.length = args.length
      omega
  case isFalse going =>
    cases callee with
    | native id =>
      dsimp only
      split
      · exact GoesOn.throw _
      · trivial
    | user id =>
      dsimp only
      split
      · exact GoesOn.throw _
      · split
        · trivial
        · refine ⟨fun v => GoesOn.finish _, fun e => ?_⟩
          cases e with
          | returned v => exact GoesOn.finish _
          | _ => exact GoesOn.throw _

theorem move_onward (p : Program) (opened : (i.form.isScope && !f.scope) = false) : (i.move p f).Onward i f := by
  unfold move
  rw [opened]
  obtain ⟨n, span, form⟩ := i
  cases form with
  | block body => exact onward_ofBlock body
  | declList items => exact onward_ofDeclList items
  | declare var name ty dims init => exact onward_ofDeclare var name ty dims init
  | forLoop => exact onward_ofFor
  | switch label value cases body => exact onward_ofSwitch label value cases body
  | call callee args ret => exact onward_ofCall p callee args ret
  | _ => exact onward_of_free (fun _ _ => rfl) rfl rfl (fun _ _ _ h => by cases h) _

end Instr
end Tickwise
