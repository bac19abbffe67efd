import Tickwise.Proofs.Machine.Positions
import Tickwise.Proofs.Typing.Storage
import Tickwise.Proofs.Typing.Units
set_option autoImplicit false

/-!
# Sound moves

Each move of a typed instruction is sound: the part that it executes is typed, and what follows leads to
a value of the static type or to a frame whose operands are those that the form expects.
-/
namespace Tickwise

open Exec

/-- The operands are the values of the first expressions of a list, and behind state 0 of all. -/
structure Frame.Collects (S : MarkedShapes) (es : List Instr) (f : Frame Variable) : Prop where
  values : ∀ (k : Nat) (v : Variable), f.operands[k]? = some v →
    ∃ e, es[k]? = some e ∧ S.HasTemp e.ty v
  index : f.state = 0 → f.index = f.operands.length
  all : f.state ≠ 0 → f.operands.length = es.length

/-- The operands are what the form expects of them. Only lists and calls use them as they are. -/
def Frame.Sound (S : MarkedShapes) : Form Instr → Frame Variable → Prop
  | .list _ es, f => f.Collects S es
  | .call (.native _) args _, f => f.Collects S args
  | .call (.user _) args _, f => f.state ≠ 2 → f.Collects S args
  | _, _ => True

namespace Frame

variable {S S' : MarkedShapes} {form : Form Instr} {es : List Instr} {f g : Frame Variable}

theorem Collects.mono (hS : S.Le S') (h : f.Collects S es) : f.Collects S' es := by
  refine ⟨fun k v hk => ?_, h.index, h.all⟩
  obtain ⟨e, he, temp⟩ := h.values k v hk
  exact ⟨e, he, temp.mono hS⟩

theorem Collects.start (S : MarkedShapes) (es : List Instr) (node : NodeId) :
    (Frame.start node).Collects S es :=
  ⟨fun k v hk => by simp [Frame.start] at hk, fun _ => rfl, fun h => absurd rfl h⟩

theorem Collects.push {e : Instr} {v : Variable} (h : f.Collects S es) (hs : f.state = 0)
    (he : itemAt? es f.index = some e) (hv : S.HasTemp e.ty v) :
    Collects S es { f with operands := f.operands ++ [v], state := 0, index := f.index + 1 } := by
  have index := h.index hs
  refine ⟨fun k w hk => ?_, fun _ => ?_, fun h => absurd rfl h⟩
  · have hk : (f.operands ++ [v])[k]? = some w := hk
    rw [List.getElem?_append] at hk
    split at hk
    case isTrue => exact h.values k w hk
    case isFalse beyond =>
      rw [List.getElem?_singleton] at hk
      split at hk
      case isTrue at_ =>
        cases hk
        have last : f.operands.length = k := by omega
        unfold itemAt? at he
        rw [if_neg (by omega), index, Int.toNat_natCast, last] at he
        exact ⟨e, he, hv⟩
      case isFalse => cases hk
  · simp [index]

theorem Collects.goOn (h : f.Collects S es) (hs : f.state = 0) (ended : itemAt? es f.index = none) :
    Collects S es { f with state := 1, index := 0 } := by
  refine ⟨h.values, (fun h => by cases h), fun _ => ?_⟩
  have index := h.index hs
  unfold itemAt? at ended
  rw [if_neg (by omega), index, Int.toNat_natCast] at ended
  apply Nat.le_antisymm
  · apply Nat.le_of_not_lt
    intro more
    obtain ⟨e, he, _⟩ := h.values es.length _ (List.getElem?_eq_getElem more)
    simp at he
  · exact List.getElem?_eq_none_iff.1 ended

theorem Sound.mono (hS : S.Le S') (h : f.Sound S form) : f.Sound S' form := by
  unfold Frame.Sound at h ⊢
  split
  · exact h.mono hS
  · exact h.mono hS
  · exact fun hs => (h hs).mono hS
  · trivial

theorem Sound.congr (same : f.bare = g.bare) (h : f.Sound S form) : g.Sound S form := by
  have state := congrArg Frame.state same
  have index := congrArg Frame.index same
  have operands := congrArg Frame.operands same
  change f.state = g.state at state
  change f.index = g.index at index
  change f.operands = g.operands at operands
  have collects {es : List Instr} (h : f.Collects S es) : g.Collects S es := by
    obtain ⟨values, position, all⟩ := h
    rw [operands] at values position all
    rw [state] at position all
    rw [index] at position
    exact ⟨values, position, all⟩
  unfold Frame.Sound at h ⊢
  split
  · exact collects h
  · exact collects h
  · exact fun hs => collects (h (by rw [state]; exact hs))
  · trivial

theorem sound_start (S : MarkedShapes) (form : Form Instr) (node : NodeId) :
    (Frame.start node).Sound S form := by
  unfold Frame.Sound
  split
  · exact .start ..
  · exact .start ..
  · exact fun _ => .start ..
  · trivial

end Frame

/-- What an instruction answers: a value of its type, or none and a frame to go on with. -/
def Instr.Answers (i : Instr) (S : MarkedShapes) (m : Machine) : Option Variable → Prop
  | some v => S.HasTemp i.ty v
  | none => m.own.Sound S i.form

/-- A computation is sound for an instruction, and does not suspend it. -/
abbrev Instr.Proceeds (i : Instr) (D : Declarations) (ret : Ty) (S : MarkedShapes)
    (r : Result (Option Variable)) : Prop :=
  Sound D ret i.Answers (fun _ _ => False) S r

/-- A machine on which an instruction goes on from a frame. -/
structure Machine.Continues (D : Declarations) (S : MarkedShapes) (f : Frame Variable) (m : Machine) : Prop where
  typed : m.Typed D S
  framed : m.frames ≠ []
  own : m.own.bare = f.bare

/-- What an instruction of a function with result type `ret` and static type `ty` ended with. -/
def Ended (D : Declarations) (S : MarkedShapes) (ret ty : Ty) : Except Interrupt Variable → Prop
  | .ok v => S.HasTemp ty v
  | .error e => e.Sound D S ret True ∧ e ≠ .suspended

def Move.Sound (p : Program) (D : Declarations) (ret : Ty) (i : Instr) (S : MarkedShapes)
    (f : Frame Variable) : Move → Prop
  | .run c follow => ∃ ret', c.Typed D ret' ∧ ∀ S' m o, S.Le S' → m.Continues D S' f →
      Ended D S' ret' c.ty o → i.Proceeds D ret S' (follow o m)
  | .pass _ state index => Frame.Sound S i.form { f with state := state, index := index }
  | .enter g => ∃ id args ret', i.form = .call (.user id) args ret' ∧ p.function? id = some g ∧
      f.state = 1
  | .invoke id g ret' => D.native? id = some g ∧ ∃ args, i.form = .call (.native id) args ret' ∧
      f.state ≠ 0
  | .act action => ∀ m, m.Continues D S f → i.Proceeds D ret S (action m)

/-- The operands of a frame do not matter to the form. -/
def Form.IsFree (form : Form Instr) : Prop := ∀ S f, Frame.Sound S form f

theorem Form.isFree_of_isScope {form : Form Instr} (h : form.isScope = true) : form.IsFree := by
  intro S f
  cases form with
  | list => cases h
  | call => cases h
  | _ => trivial

namespace Instr.Proceeds

variable {D : Declarations} {ret : Ty} {i : Instr} {S : MarkedShapes} {m : Machine} {f : Frame Variable}
  {v : Variable}

theorem value {Q : MarkedShapes → Machine → Variable → Prop} {c : Exec Variable}
    (h : Sound D ret Q (fun _ _ => False) S (c m)) (hQ : ∀ S m v, Q S m v → S.HasTemp i.ty v) :
    i.Proceeds D ret S (finish c m) :=
  Sound.finish h hQ

theorem void (hm : m.Typed D S) (hi : i.ty = .void) : i.Proceeds D ret S (finish void m) :=
  value (Q := fun S _ v => S.HasTemp .void v) (.pure hm (MarkedShapes.hasTemp_ofVoid S)) (by simp [hi])

theorem setFrame {g : Frame Variable → Frame Variable} (hm : m.Continues D S f)
    (same : ∀ f, S.HasFrame D f → S.HasFrame D (g f))
    (congr : ∀ f : Frame Variable, (g f).bare = (g f.bare).bare)
    (h : Frame.Sound S i.form (g f)) : i.Proceeds D ret S (goOn (modify (·.modifyFrame g)) m) := by
  refine ⟨S, .refl S, hm.typed.modifyFrame same, ?_⟩
  change (m.modifyFrame g).own.Sound S i.form
  rw [Machine.own_modifyFrame hm.framed]
  apply h.congr
  rw [congr, ← hm.own, ← congr]

theorem setPosition {state : Nat} {index : Int} (hm : m.Continues D S f)
    (h : Frame.Sound S i.form { f with state := state, index := index }) :
    i.Proceeds D ret S (goOn (setPosition state index) m) :=
  setFrame hm (fun _ own => ⟨own.locals, own.operands⟩) (fun _ => rfl) h

theorem nextIndex {state : Nat} (hm : m.Continues D S f) (free : i.form.IsFree) :
    i.Proceeds D ret S (goOn (nextIndex state) m) :=
  setFrame hm (fun _ own => ⟨own.locals, own.operands⟩) (fun _ => rfl) (free ..)

theorem setOperands {vs : List Variable} {c : Exec Unit} (hm : m.Continues D S f)
    (hvs : ∀ v ∈ vs, ∃ ty, S.HasTemp ty v)
    (h : ∀ m, m.Continues D S { f with operands := vs } → i.Proceeds D ret S (goOn c m)) :
    i.Proceeds D ret S (goOn (do Exec.setOperands vs; c) m) := by
  apply h (m.modifyFrame ({ · with operands := vs }))
  refine ⟨hm.typed.modifyFrame fun _ own => ⟨own.locals, hvs⟩, ?_, ?_⟩
  · obtain ⟨_ | _, _⟩ := m
    · exact absurd rfl hm.framed
    · exact List.cons_ne_nil _ _
  · rw [Machine.own_modifyFrame hm.framed]
    have own := congrArg (fun f : Frame Variable => { f with operands := vs }) hm.own
    exact own

theorem pushOperand {c : Exec Unit} {ty : Ty} (hm : m.Continues D S f) (hv : S.HasTemp ty v)
    (h : ∀ m, m.Continues D S { f with operands := f.operands ++ [v] } →
      i.Proceeds D ret S (goOn c m)) : i.Proceeds D ret S (goOn (do Exec.pushOperand v; c) m) := by
  have operands : m.own.operands = f.operands := by
    have own := congrArg Frame.operands hm.own
    exact own
  rw [← operands] at h
  have temps : ∀ w ∈ m.own.operands ++ [v], ∃ ty, S.HasTemp ty w :=
    List.forall_mem_append.2 ⟨hm.typed.own.operands, List.forall_mem_singleton.2 ⟨ty, hv⟩⟩
  have pushed := setOperands hm temps h
  obtain ⟨_ | _, _⟩ := m
  · exact absurd rfl hm.framed
  · exact pushed

end Instr.Proceeds

namespace Move

variable {p : Program} {D : Declarations} {ret : Ty} {i c : Instr} {S : MarkedShapes} {f : Frame Variable}
  {span : Span}

theorem Sound.eval {follow : Variable → Exec (Option Variable)} (hc : c.Typed D ret)
    (h : ∀ S' m v, S.Le S' → m.Continues D S' f → S'.HasTemp c.ty v →
      i.Proceeds D ret S' (follow v m)) : (Move.eval c follow).Sound p D ret i S f := by
  refine ⟨ret, hc, fun S' m o le hm ended => ?_⟩
  cases o with
  | ok v => exact h S' m v le hm ended
  | error e =>
    refine .throw hm.typed ?_
    obtain ⟨sound, running⟩ := ended
    cases e with
    | suspended => exact absurd rfl running
    | _ => exact sound

theorem Sound.test {follow : Bool → Exec (Option Variable)} (hc : c.Typed D ret)
    (h : ∀ S' m b, S.Le S' → m.Continues D S' f → i.Proceeds D ret S' (follow b m)) :
    (Move.test c follow).Sound p D ret i S f := by
  apply Sound.eval hc
  intro S' m v le hm _
  apply Tickwise.Sound.check hm.typed
  intro b _
  exact h S' m b le hm

theorem Sound.finishVoid (hi : i.ty = .void) :
    (Move.act (finish Exec.void)).Sound p D ret i S f :=
  fun _ hm => .void hm.typed hi

theorem Sound.sequence {items : List Instr} {state : Nat} {afterwards : Exec (Option Variable)}
    (hs : ∀ c ∈ items, c.Typed D ret) (free : i.form.IsFree)
    (h : ∀ m, m.Continues D S f → i.Proceeds D ret S (afterwards m)) :
    (Move.sequence items f.index state afterwards).Sound p D ret i S f := by
  unfold Move.sequence
  cases hi : itemAt? items f.index with
  | none => exact h
  | some c =>
    apply Sound.eval (hs c (mem_of_itemAt? hi))
    intro S' m v _ hm _
    exact .nextIndex hm free

theorem Sound.collect {es : List Instr} {afterwards : Exec (Option Variable)}
    (hes : ∀ e ∈ es, e.Typed D ret)
    (push : ∀ S' e v, S.Le S' → itemAt? es f.index = some e → S'.HasTemp e.ty v →
      Frame.Sound S' i.form
        { f with operands := f.operands ++ [v], state := 0, index := f.index + 1 })
    (h : itemAt? es f.index = none → ∀ m, m.Continues D S f → i.Proceeds D ret S (afterwards m)) :
    (Move.collect es f.index afterwards).Sound p D ret i S f := by
  unfold Move.collect
  cases he : itemAt? es f.index with
  | none => exact h he
  | some e =>
    apply Sound.eval (hes e (mem_of_itemAt? he))
    intro S' m v le hm hv
    apply Instr.Proceeds.pushOperand hm hv
    intro m' hm'
    exact .setFrame hm' (fun _ own => ⟨own.locals, own.operands⟩) (fun _ => rfl) (push S' e v le he hv)

theorem Sound.collectFree {es : List Instr} {afterwards : Exec (Option Variable)}
    (hes : ∀ e ∈ es, e.Typed D ret) (free : i.form.IsFree)
    (h : ∀ m, m.Continues D S f → i.Proceeds D ret S (afterwards m)) :
    (Move.collect es f.index afterwards).Sound p D ret i S f :=
  .collect hes (fun _ _ _ _ _ _ => free ..) fun _ => h

theorem Sound.absorb {body : Instr} {label : Option String} {isLoop : Bool} {next : Exec Unit}
    (hb : body.Typed D ret) (hi : i.ty = .void)
    (h : ∀ S' m, m.Continues D S' f → i.Proceeds D ret S' (goOn next m)) :
    (Move.run body (absorb label isLoop next)).Sound p D ret i S f := by
  refine ⟨ret, hb, fun S' m o _ hm ended => ?_⟩
  cases o with
  | ok v => exact h S' m hm
  | error e =>
    obtain ⟨sound, running⟩ := ended
    cases e with
    | suspended => exact absurd rfl running
    | returned v => exact .throw hm.typed sound
    | fault error => exact .throw hm.typed trivial
    | crashed c => exact .throw hm.typed sound
    | breakTo target =>
      unfold Exec.absorb
      dsimp only
      split
      · exact .void hm.typed hi
      · exact .throw hm.typed trivial
    | continueTo target =>
      unfold Exec.absorb
      dsimp only
      split
      · exact h S' m hm
      · exact .throw hm.typed trivial

theorem Sound.ofBlock {body : List Instr} (hb : ∀ c ∈ body, c.Typed D ret) (hi : i.ty = .void)
    (free : i.form.IsFree) : (Move.ofBlock body f).Sound p D ret i S f := by
  unfold Move.ofBlock
  cases hs : itemAt? body f.index with
  | none => exact .finishVoid hi
  | some s =>
    dsimp only
    split
    · exact free _ _
    · apply Sound.eval (hb s (mem_of_itemAt? hs))
      intro S' m v _ hm _
      exact .nextIndex hm free

theorem Sound.ofDeclare {var : VarId} {name : String} {ty : Ty} {dims : List Instr}
    {init : Option Instr} (hd : ∀ c ∈ dims, c.Typed D ret) (hi : ∀ e, init = some e → e.Typed D ret)
    (declared : D.var? var = some ty) (fits : ∀ e, init = some e → ty.Fits e.ty)
    (void : i.ty = .void) (free : i.form.IsFree) :
    (Move.ofDeclare span var name ty dims init f).Sound p D ret i S f := by
  have isVoid : ∀ (S : MarkedShapes) (m : Machine) (v : Variable), S.HasTemp .void v → S.HasTemp i.ty v :=
    fun S m v hv => by rw [void]; exact hv
  unfold Move.ofDeclare
  split
  · exact .collectFree hd free fun m hm => .setPosition hm (free ..)
  · cases init with
    | some e =>
      apply Sound.eval (hi e rfl)
      intro S' m v _ hm hv
      refine .value (Q := fun S _ v => S.HasTemp .void v) ?_ isVoid
      have has : S'.Has ty v.value := hv.2.fits (fits e rfl)
      apply Tickwise.Sound.convert hm.typed has has.offers
      intro w temp
      exact .declare hm.typed ⟨ty, declared, temp.slot⟩
    | none =>
      intro m hm
      refine .value (Q := fun S _ v => S.HasTemp .void v) ?_ isVoid
      apply Tickwise.Sound.bind (Tickwise.Sound.undefinedValue hm.typed)
      intro S' m' v _ typed slot
      exact .declare typed ⟨ty, declared, slot⟩

theorem Sound.ofBranch {cond yes : Instr} {no : Option Instr} (hc : cond.Typed D ret)
    (hy : yes.Typed D ret) (hn : ∀ c, no = some c → c.Typed D ret) (hi : i.ty = .void)
    (free : i.form.IsFree) : (Move.ofBranch cond yes no f).Sound p D ret i S f := by
  unfold Move.ofBranch
  split
  · apply Sound.test hc
    intro S' m b _ hm
    exact .setPosition hm (free ..)
  · exact .eval hy fun S' m v _ hm _ => .void hm.typed hi
  · cases no with
    | some c => exact .eval (hn c rfl) fun S' m v _ hm _ => .void hm.typed hi
    | none => exact .finishVoid hi

theorem Sound.loopTest {cond : Instr} {state : Nat} (hc : cond.Typed D ret) (hi : i.ty = .void)
    (free : i.form.IsFree) :
    (Move.test cond fun b => if b then goOn (setPosition state 0) else finish Exec.void).Sound
      p D ret i S f := by
  apply Sound.test hc
  intro S' m b _ hm
  cases b with
  | true => exact .setPosition hm (free ..)
  | false => exact .void hm.typed hi

theorem Sound.ofWhile {label : Option String} {cond body : Instr} (hc : cond.Typed D ret)
    (hb : body.Typed D ret) (hi : i.ty = .void) (free : i.form.IsFree) :
    (Move.ofWhile span label cond body f).Sound p D ret i S f := by
  unfold Move.ofWhile
  split
  · exact .loopTest hc hi free
  · exact free _ _
  · exact .absorb hb hi fun S' m hm => .setPosition hm (free ..)

theorem Sound.ofDoWhile {label : Option String} {body cond : Instr} (hb : body.Typed D ret)
    (hc : cond.Typed D ret) (hi : i.ty = .void) (free : i.form.IsFree) :
    (Move.ofDoWhile span label body cond f).Sound p D ret i S f := by
  unfold Move.ofDoWhile
  split
  · exact free _ _
  · exact .absorb hb hi fun S' m hm => .setPosition hm (free ..)
  · exact .loopTest hc hi free

theorem Sound.ofFor {label : Option String} {init : List Instr} {cond : Option Instr}
    {next : List Instr} {body : Instr} (hs : ∀ c ∈ init, c.Typed D ret)
    (hc : ∀ c, cond = some c → c.Typed D ret) (hn : ∀ c ∈ next, c.Typed D ret)
    (hb : body.Typed D ret) (hi : i.ty = .void) (free : i.form.IsFree) :
    (Move.ofFor span label init cond next body f).Sound p D ret i S f := by
  unfold Move.ofFor
  split
  · exact .sequence hs free fun m hm => .setPosition hm (free ..)
  · cases cond with
    | some cond => exact .loopTest (hc cond rfl) hi free
    | none => exact fun m hm => .setPosition hm (free ..)
  · exact free _ _
  · exact .absorb hb hi fun S' m hm => .setPosition hm (free ..)
  · exact .sequence hn free fun m hm => .setPosition hm (free ..)

theorem Sound.ofSwitch {label : Option String} {value : Instr} {cases : List Case}
    {body : List Instr} (hv : value.Typed D ret) (hb : ∀ c ∈ body, c.Typed D ret) (hi : i.ty = .void)
    (free : i.form.IsFree) : (Move.ofSwitch span label value cases body f).Sound p D ret i S f := by
  unfold Move.ofSwitch
  split
  · apply Sound.eval hv
    intro S' m v _ hm _
    apply Tickwise.Sound.check hm.typed
    intro n _
    cases chooseCase cases n with
    | some c => exact Instr.Proceeds.setPosition hm (free ..)
    | none => exact Instr.Proceeds.void hm.typed hi
  · cases hs : itemAt? body f.index with
    | none => exact .finishVoid hi
    | some s =>
      dsimp only
      split
      · exact free _ _
      · exact .absorb (hb s (mem_of_itemAt? hs)) hi fun S' m hm => .nextIndex hm free

theorem Sound.attempt {body : Instr} (hb : body.Typed D ret) (hi : i.ty = .void)
    (free : i.form.IsFree) : (Move.run body attempt).Sound p D ret i S f := by
  refine ⟨ret, hb, fun S' m o _ hm ended => ?_⟩
  cases o with
  | ok v => exact .void hm.typed hi
  | error e =>
    obtain ⟨sound, running⟩ := ended
    cases e with
    | suspended => exact absurd rfl running
    | fault error =>
      unfold Exec.attempt
      dsimp only
      split
      · exact .throw hm.typed trivial
      · have numbers : ∀ v ∈ faultOperands error, ∃ ty, S'.HasTemp ty v := by
          have number (n : Int32) : ∃ ty, S'.HasTemp ty (Slot.ofInt n) := ⟨.int, S'.hasTemp_ofInt n⟩
          intro v hv
          simp only [faultOperands, List.mem_cons, List.not_mem_nil, or_false] at hv
          rcases hv with rfl | rfl | rfl | rfl <;> exact number _
        apply Instr.Proceeds.setOperands hm numbers
        intro m' hm'
        exact .setPosition hm' (free ..)
    | _ => exact .throw hm.typed sound

theorem Sound.catches {α : Type} {Q : MarkedShapes → Machine → α → Prop} {L : MarkedShapes → Machine → Prop}
    {m : Machine} {filter : Variable} {code : Int32} {follow : Bool → Exec α} (hm : m.Typed D S)
    (ok : ∀ b, Tickwise.Sound D ret Q L S (follow b m)) :
    Tickwise.Sound D ret Q L S ((catches span filter code >>= follow) m) := by
  unfold Exec.catches
  split
  · exact .check hm fun b _ => ok b
  · rw [bind_assoc]
    exact .check hm fun n _ => ok _

theorem Sound.ofTry {body : Instr} {cs : List (Catch Instr)} (hb : body.Typed D ret)
    (hc : ∀ c ∈ cs, c.filter.Typed D ret ∧ c.handler.Typed D ret) (hi : i.ty = .void)
    (free : i.form.IsFree) : (Move.ofTry body cs f).Sound p D ret i S f := by
  unfold Move.ofTry
  split
  · exact .attempt hb hi free
  · cases caughtCode? f.operands with
    | none => exact fun m hm => .faultAt hm.typed _ _
    | some code =>
      cases hi' : itemAt? cs f.index with
      | none => exact fun m hm => .throw hm.typed trivial
      | some c =>
        obtain ⟨filter, handler⟩ := hc c (mem_of_itemAt? hi')
        dsimp only
        split
        · exact .eval handler fun S' m v _ hm _ => .void hm.typed hi
        · apply Sound.eval filter
          intro S' m v _ hm _
          apply Sound.catches hm.typed
          intro b
          cases b with
          | true => exact Instr.Proceeds.setPosition hm (free ..)
          | false => exact Instr.Proceeds.nextIndex hm free

theorem Sound.ofStore {place : Place Instr} {op : Option BinaryOp} {operandTy : Ty} {value : Instr}
    (hp : ∀ c ∈ place.indices, c.Typed D ret) (hv : value.Typed D ret)
    (checks : D.Checks ret (.store place op operandTy value)) (hi : i.ty = place.ty)
    (free : i.form.IsFree) : (Move.ofStore span place op operandTy value f).Sound p D ret i S f := by
  unfold Move.ofStore
  split
  · exact .collectFree hp free fun m hm => .setPosition hm (free ..)
  · apply Sound.eval hv
    intro S' m v _ hm temp
    refine .value (Q := fun S _ w => S.HasTemp place.ty w) ?_ fun _ _ _ h => by rw [hi]; exact h
    cases op with
    | none =>
      obtain ⟨names, fits⟩ := checks
      exact .assign hm.typed names temp.2 (fun _ => temp.2.fits fits) fun h => absurd rfl h
    | some op =>
      obtain ⟨names, scalar⟩ := checks
      exact .assign hm.typed names temp.2 nofun fun _ => scalar

theorem Sound.ofBinary {op : BinaryOp} {operandTy : Ty} {left right : Instr}
    (hl : left.Typed D ret) (hr : right.Typed D ret) (suits : op.Suits operandTy)
    (hi : i.ty = if op.isComparison then .bool else operandTy) (free : i.form.IsFree) :
    (Move.ofBinary span op operandTy left right f).Sound p D ret i S f := by
  unfold Move.ofBinary
  split
  · apply Sound.eval hl
    intro S' m v _ hm hv
    apply Instr.Proceeds.pushOperand hm hv
    intro m' hm'
    exact .setPosition hm' (free ..)
  · apply Sound.eval hr
    intro S' m right _ hm temp
    change i.Proceeds D ret S' (finish (match m.own.operands.head? with
      | some left => operate span op left right operandTy
      | none => faultAt span .uninitialized) m)
    cases head : m.own.operands.head? with
    | none => exact .faultAt hm.typed _ _
    | some left =>
      obtain ⟨src, first⟩ := hm.typed.own.operands left (List.mem_of_head? head)
      apply Tickwise.Sound.operate hm.typed (.inr first.2) temp.2
      intro result computed
      refine .pure hm.typed ?_
      change S'.HasTemp i.ty result
      rw [hi]
      exact S'.hasTemp_binary suits computed

theorem Sound.ofLogical {isAnd : Bool} {left right : Instr} (hl : left.Typed D ret)
    (hr : right.Typed D ret) (hi : i.ty = .bool) (free : i.form.IsFree) :
    (Move.ofLogical span isAnd left right f).Sound p D ret i S f := by
  have answer {S' : MarkedShapes} {m : Machine} (hm : m.Typed D S') (b : Bool) :
      i.Proceeds D ret S' (finish (return Slot.ofBool b) m) := by
    refine .pure hm ?_
    change S'.HasTemp i.ty (Slot.ofBool b)
    rw [hi]
    exact S'.hasTemp_ofBool b
  unfold Move.ofLogical
  split
  · apply Sound.eval hl
    intro S' m v _ hm _
    apply Tickwise.Sound.check hm.typed
    intro b _
    split
    · exact Instr.Proceeds.setPosition hm (free ..)
    · exact answer hm.typed _
  · apply Sound.eval hr
    intro S' m v _ hm _
    have terms : (finish do return Slot.ofBool (← check span v.toBool)) =
        (check span v.toBool >>= fun b => finish (return Slot.ofBool b)) := bind_assoc ..
    rw [terms]
    exact .check hm.typed fun b _ => answer hm.typed b

theorem Sound.ofTernary {cond yes no : Instr} (hc : cond.Typed D ret) (hy : yes.Typed D ret)
    (hn : no.Typed D ret) (fitsYes : i.ty.Fits yes.ty) (fitsNo : i.ty.Fits no.ty)
    (free : i.form.IsFree) : (Move.ofTernary cond yes no f).Sound p D ret i S f := by
  unfold Move.ofTernary
  split
  · apply Sound.test hc
    intro S' m b _ hm
    exact .setPosition hm (free ..)
  · exact .eval hy fun S' m v _ hm hv => .pure hm.typed (hv.fits fitsYes)
  · exact .eval hn fun S' m v _ hm hv => .pure hm.typed (hv.fits fitsNo)

theorem Sound.ofList {id : NodeId} {at_ : Span} {elem : Ty} {elements : List Instr}
    (hes : ∀ e ∈ elements, e.Typed D ret) (fits : ∀ e ∈ elements, elem.Fits e.ty)
    (hf : f.Collects S elements) (hs : f.state = 0) :
    (Move.collect elements f.index (finish (list span (.array elem)))).Sound p D ret
      (.mk id at_ (.list (.array elem) elements)) S f := by
  apply Sound.collect hes
  · intro S' e v le he hv
    exact (hf.mono le).push hs he hv
  · intro _ m hm
    have own := congrArg Frame.operands hm.own
    change m.own.operands = f.operands at own
    have slots : ∀ v ∈ m.own.operands, S.HasSlot elem v := by
      intro v hv
      rw [own] at hv
      obtain ⟨k, hk⟩ := List.mem_iff_getElem?.1 hv
      obtain ⟨e, he, temp⟩ := hf.values k v hk
      exact (temp.fits (fits e (List.mem_of_getElem? he))).slot
    change Tickwise.Sound D ret _ _ S ((checkStorage span
      (fun h => .ok (h.newArray elem m.own.operands)) >>= fun v => pure (some v)) m)
    apply Tickwise.Sound.checkStorage hm.typed
    · intro r hr
      cases hr
      exact hm.typed.heap.makes_newArray slots
    · intro S' v heap _ typed temp
      exact .pure typed temp

theorem Sound.result {id : NodeId} {at_ : Span} {callee : Callee} {args : List Instr} {ty : Ty}
    {body : Instr} (hb : body.Typed D ty) :
    (Move.run body (result span ty)).Sound p D ret (.mk id at_ (.call callee args ty)) S f := by
  refine ⟨ty, hb, fun S' m o _ hm ended => ?_⟩
  cases o with
  | ok v =>
    unfold Exec.result
    dsimp only
    split
    case isTrue isVoid =>
      refine .pure hm.typed ?_
      change S'.HasTemp ty Slot.ofVoid
      rw [isVoid]
      exact S'.hasTemp_ofVoid
    case isFalse => exact .faultAt hm.typed _ _
  | error e =>
    obtain ⟨sound, running⟩ := ended
    cases e with
    | suspended => exact absurd rfl running
    | returned v =>
      have has : S'.Has ty v.value := sound
      apply Tickwise.Sound.convert hm.typed has has.offers
      intro w converted
      exact .pure hm.typed converted
    | crashed c => exact .throw hm.typed sound
    | _ => exact .throw hm.typed trivial

theorem sound_of_collects {callee : Callee} {args : List Instr} {ty : Ty} {g : Frame Variable}
    (h : g.Collects S args) : g.Sound S (.call callee args ty) := by
  cases callee with
  | native id => exact h
  | user id => exact fun _ => h

theorem Sound.ofCall {id : NodeId} {at_ : Span} {callee : Callee} {args : List Instr} {ty : Ty}
    (hp : p.Typed D) (hargs : ∀ c ∈ args, c.Typed D ret) (checks : D.Checks ret (.call callee args ty))
    (hf : f.Sound S (.call callee args ty)) :
    (Move.ofCall p span callee args ty f).Sound p D ret (.mk id at_ (.call callee args ty)) S f := by
  unfold Move.ofCall
  split
  case isTrue zero =>
    have collects : f.Collects S args := by
      cases callee with
      | native id => exact hf
      | user id => exact hf (by rw [zero]; decide)
    apply Sound.collect hargs
    · intro S' e v le he hv
      exact sound_of_collects ((collects.mono le).push zero he hv)
    · intro ended m hm
      exact .setPosition hm (sound_of_collects (collects.goOn zero ended))
  case isFalse behind =>
    cases callee with
    | native native =>
      dsimp only
      cases hn : p.env.natives.get? native with
      | none => exact fun m hm => .faultAt hm.typed _ _
      | some g => exact ⟨(hp.natives native).symm.trans hn, args, rfl, behind⟩
    | user function =>
      dsimp only
      cases hg : p.function? function with
      | none => exact fun m hm => .faultAt hm.typed _ _
      | some g =>
        dsimp only
        split
        case isTrue one => exact ⟨function, args, ty, rfl, hg, one⟩
        case isFalse =>
          obtain ⟨params, known, _⟩ := checks
          have signature := hp.signatures hg
          rw [known] at signature
          obtain ⟨-, rfl⟩ := Prod.mk.inj (Option.some.inj signature)
          exact .result (hp.functions g (List.mem_of_getElem? hg)).body

end Move

theorem Instr.move_sound {p : Program} {D : Declarations} {ret : Ty} {i : Instr} {S : MarkedShapes}
    {f : Frame Variable} (hp : p.Typed D) (hi : i.Typed D ret) (hf : f.Sound S i.form)
    (hs : f.state < i.form.states) : (i.move p f).Sound p D ret i S f := by
  obtain ⟨id, span, form⟩ := i
  have checks := hi.checks
  have part {c : Instr} (hc : c ∈ form.children) : c.Typed D ret := hi.part hc
  change f.state < form.states at hs
  unfold Instr.move
  split
  case isTrue scope =>
    have free := Form.isFree_of_isScope (Bool.and_eq_true_iff.1 scope).1
    exact fun m hm => .setFrame hm (fun _ own => ⟨own.locals, own.operands⟩) (fun _ => rfl) (free ..)
  case isFalse =>
    cases form with
    | block body => exact .ofBlock (fun c hc => part hc) rfl fun _ _ => trivial
    | declList items =>
      exact .sequence (fun c hc => part hc) (fun _ _ => trivial) fun m hm => .void hm.typed rfl
    | declare var name ty dims init =>
      refine .ofDeclare (fun c hc => part (List.mem_append_left _ hc)) (fun e he => part ?_) checks.1
        checks.2 rfl fun _ _ => trivial
      exact List.mem_append_right _ (by simp [he])
    | branch cond yes no =>
      refine .ofBranch (part ?_) (part ?_) (fun c hc => part ?_) rfl fun _ _ => trivial
      all_goals simp [Form.children, *]
    | whileLoop label cond body =>
      refine .ofWhile (part ?_) (part ?_) rfl fun _ _ => trivial
      all_goals simp [Form.children]
    | doWhile label body cond =>
      refine .ofDoWhile (part ?_) (part ?_) rfl fun _ _ => trivial
      all_goals simp [Form.children]
    | forLoop label init cond next body =>
      refine .ofFor (fun c hc => part ?_) (fun c hc => part ?_) (fun c hc => part ?_) (part ?_) rfl
        fun _ _ => trivial
      all_goals simp [Form.children, *]
    | switch label value cases body =>
      exact .ofSwitch (part List.mem_cons_self) (fun c hc => part (List.mem_cons_of_mem _ hc)) rfl
        fun _ _ => trivial
    | tryCatch body catches =>
      refine .ofTry (part List.mem_cons_self) (fun c hc => ?_) rfl fun _ _ => trivial
      have clause (part' : Instr) (h : part' ∈ [c.filter, c.handler]) : part'.Typed D ret :=
        part (List.mem_cons_of_mem _ (List.mem_flatMap.2 ⟨c, hc, h⟩))
      exact ⟨clause _ List.mem_cons_self, clause _ (List.mem_cons_of_mem _ List.mem_cons_self)⟩
    | ret value =>
      cases value with
      | none => exact fun m hm => .value (.leaf hi rfl hm.typed) fun _ _ _ h => h
      | some e =>
        apply Move.Sound.eval (part List.mem_cons_self)
        intro S' m v _ hm temp
        have fits : ret.Fits e.ty := checks
        exact .throw hm.typed (temp.2.fits fits)
    | throw value =>
      apply Move.Sound.eval (part List.mem_cons_self)
      intro S' m v _ hm _
      exact .check hm.typed fun n _ => .faultAt hm.typed _ _
    | load place =>
      refine .collectFree (fun c hc => part hc) (fun _ _ => trivial) fun m hm => ?_
      exact .value (.load hm.typed checks) fun _ _ _ h => h
    | store place op operandTy value =>
      refine .ofStore (fun c hc => part (List.mem_append_left _ hc))
        (part (List.mem_append_right _ List.mem_cons_self)) checks rfl fun _ _ => trivial
    | step place up before =>
      refine .collectFree (fun c hc => part hc) (fun _ _ => trivial) fun m hm => ?_
      exact .value (.step hm.typed checks.1 checks.2) fun _ _ _ h => h
    | binary op operandTy left right =>
      exact .ofBinary (part List.mem_cons_self) (part (List.mem_cons_of_mem _ List.mem_cons_self)) checks
        rfl fun _ _ => trivial
    | logical isAnd left right =>
      exact .ofLogical (part List.mem_cons_self) (part (List.mem_cons_of_mem _ List.mem_cons_self)) rfl
        fun _ _ => trivial
    | unary op operand =>
      apply Move.Sound.eval (part List.mem_cons_self)
      intro S' m v _ hm temp
      apply Sound.check hm.typed
      intro w hw
      exact .pure hm.typed (temp.unary checks hw)
    | ternary cond yes no =>
      refine .ofTernary (part ?_) (part ?_) (part ?_) checks.1 checks.2 fun _ _ => trivial
      all_goals simp [Form.children]
    | convert target operand =>
      apply Move.Sound.eval (part List.mem_cons_self)
      intro S' m v _ hm temp
      apply Sound.convert hm.typed temp.2 (Shapes.offers_of_scalar checks S'.toShapes v)
      intro w hw
      exact .pure hm.typed hw
    | call callee args ty => exact .ofCall hp (fun c hc => part hc) checks hf
    | list ty elements =>
      obtain ⟨elem, rfl, fits⟩ := checks
      exact .ofList (fun c hc => part hc) fits hf (Nat.lt_one_iff.1 hs)
    | _ => exact fun m hm => .value (.leaf hi rfl hm.typed) fun _ _ _ h => h

end Tickwise
