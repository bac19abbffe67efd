import Mathlib.Data.List.Forall2
import Tickwise.Proofs.Machine.Turns
set_option autoImplicit false

/-!
# Scopes at run time

Which variables are declared in the scopes of the frames around an instruction, up to the one of the function
body. Whatever executes, they stay declared in the frames around it.
-/
namespace Tickwise

namespace Frame

def Has (f : Frame Variable) (x : VarId) : Prop := ∃ v ∈ f.locals, v.id = x

/-- Among frames, innermost first, is a scope as `Q` says, no further out than the function body. -/
def Reaches (Q : Frame Variable → Prop) : List (Frame Variable) → Prop
  | [] => False
  | f :: fs => (f.scope = true ∧ Q f) ∨ (f.call = false ∧ Reaches Q fs)

/-- A variable is declared in a scope of the frames. -/
abbrev Declared (x : VarId) : List (Frame Variable) → Prop := Reaches (·.Has x)

/-- There is a scope for declarations among the frames. -/
abbrev Enclosed : List (Frame Variable) → Prop := Reaches fun _ => True

/-- A frame that stays the scope that it is, with the variables that it has. -/
structure Keeps (f g : Frame Variable) : Prop where
  call : g.call = f.call
  scope : f.scope = true → g.scope = true
  has : ∀ {x}, f.Has x → g.Has x

variable {f g h : Frame Variable} {fs gs : List (Frame Variable)} {x id : VarId} {v : Variable}

theorem Keeps.refl (f : Frame Variable) : f.Keeps f := ⟨rfl, id, id⟩

theorem Keeps.trans (first : f.Keeps g) (second : g.Keeps h) : f.Keeps h :=
  ⟨second.call.trans first.call, fun hf => second.scope (first.scope hf), fun hx => second.has (first.has hx)⟩

theorem forall₂_keeps_refl (fs : List (Frame Variable)) : List.Forall₂ Keeps fs fs :=
  List.forall₂_same.2 fun f _ => .refl f

theorem forall₂_keeps_trans {hs : List (Frame Variable)} (first : List.Forall₂ Keeps fs gs)
    (second : List.Forall₂ Keeps gs hs) : List.Forall₂ Keeps fs hs := by
  induction first generalizing hs with
  | nil => exact second
  | cons head _ ih =>
    cases second with
    | cons head' rest' => exact .cons (head.trans head') (ih rest')

theorem Reaches.keep {Q : Frame Variable → Prop} (keep : List.Forall₂ Keeps fs gs)
    (hQ : ∀ {f g}, f.Keeps g → Q f → Q g) (h : Reaches Q fs) : Reaches Q gs := by
  induction keep with
  | nil => exact h
  | cons first _ ih =>
    rcases h with ⟨scope, here⟩ | ⟨inner, h⟩
    · exact .inl ⟨first.scope scope, hQ first here⟩
    · exact .inr ⟨first.call.trans inner, ih h⟩

theorem Declared.keep (keep : List.Forall₂ Keeps fs gs) (h : Declared x fs) : Declared x gs :=
  Reaches.keep keep (fun first hx => first.has hx) h

theorem Enclosed.keep (keep : List.Forall₂ Keeps fs gs) (h : Enclosed fs) : Enclosed gs :=
  Reaches.keep keep (fun _ _ => trivial) h

theorem isSome_local?_iff : (f.local? x).isSome = true ↔ f.Has x := by
  unfold local? Has
  rw [List.find?_isSome]
  simp

theorem Declared.found (h : Declared x fs) : ∃ v, Frame.findVar? x fs = some v := by
  induction fs with
  | nil => exact h.elim
  | cons f fs ih =>
    unfold Frame.findVar?
    cases hx : f.local? x with
    | some v => exact ⟨v, rfl⟩
    | none =>
      rcases h with ⟨_, here⟩ | ⟨inner, h⟩
      · rw [← isSome_local?_iff, hx] at here
        cases here
      · dsimp only
        rw [inner]
        exact ih h

theorem mem_replaceFirst {p : Variable → Bool} {vs : List Variable} {w : Variable} (hw : w ∈ vs) :
    w ∈ replaceFirst p v vs ∨ p w = true ∧ v ∈ replaceFirst p v vs := by
  induction vs with
  | nil => cases hw
  | cons u vs ih =>
    unfold replaceFirst
    cases hp : p u with
    | true =>
      rw [if_pos rfl]
      rcases List.mem_cons.1 hw with rfl | hw
      · exact .inr ⟨hp, List.mem_cons_self⟩
      · exact .inl (List.mem_cons_of_mem _ hw)
    | false =>
      rw [if_neg Bool.false_ne_true]
      rcases List.mem_cons.1 hw with rfl | hw
      · exact .inl List.mem_cons_self
      · exact (ih hw).imp (List.mem_cons_of_mem _) fun h => ⟨h.1, List.mem_cons_of_mem _ h.2⟩

theorem keeps_setLocal (f : Frame Variable) (same : v.id = id) : f.Keeps (f.setLocal id v) := by
  refine ⟨rfl, fun h => h, ?_⟩
  rintro x ⟨w, hw, rfl⟩
  rcases mem_replaceFirst (p := fun w => w.id = id) (v := v) (List.mem_reverse.2 hw) with kept | ⟨hit, new⟩
  · exact ⟨w, List.mem_reverse.2 kept, rfl⟩
  · exact ⟨v, List.mem_reverse.2 new, same.trans (of_decide_eq_true hit).symm⟩

theorem has_declare (f : Frame Variable) (v : Variable) : (f.declare v).Has v.id := by
  unfold declare
  by_cases again : f.locals.any (·.id = v.id) = true
  · obtain ⟨w, hw, hit⟩ := List.any_eq_true.1 again
    rcases mem_replaceFirst (p := fun w => w.id = v.id) (v := v) hw with kept | ⟨_, new⟩
    · exact ⟨w, by simpa [again] using kept, of_decide_eq_true hit⟩
    · exact ⟨v, by simpa [again] using new, rfl⟩
  · exact ⟨v, by simp [again], rfl⟩

theorem keeps_declare (f : Frame Variable) (v : Variable) : f.Keeps (f.declare v) := by
  refine ⟨rfl, fun h => h, ?_⟩
  rintro x ⟨w, hw, rfl⟩
  unfold declare Has
  by_cases again : f.locals.any (·.id = v.id) = true
  · rcases mem_replaceFirst (p := fun w => w.id = v.id) (v := v) hw with kept | ⟨hit, new⟩
    · exact ⟨w, by simpa [again] using kept, rfl⟩
    · exact ⟨v, by simpa [again] using new, (of_decide_eq_true hit).symm⟩
  · exact ⟨w, by simp [again, hw], rfl⟩

theorem forall₂_keeps_setVar (fs : List (Frame Variable)) (same : v.id = id) :
    List.Forall₂ Keeps fs (Frame.setVar id v fs) := by
  induction fs with
  | nil => exact .nil
  | cons f fs ih =>
    unfold Frame.setVar
    split
    · exact .cons (f.keeps_setLocal same) (forall₂_keeps_refl fs)
    · split
      · exact forall₂_keeps_refl _
      · exact .cons (.refl f) ih

theorem find?_replaceFirst {p : Variable → Bool} {u : Variable} (hu : p u = true) {vs : List Variable}
    (found : vs.find? p = some v) : (replaceFirst p u vs).find? p = some u := by
  induction vs with
  | nil => cases found
  | cons w vs ih =>
    unfold replaceFirst
    cases hw : p w with
    | true => rw [if_pos rfl, List.find?_cons_of_pos hu]
    | false =>
      rw [if_neg Bool.false_ne_true, List.find?_cons_of_neg (by simp [hw])]
      rw [List.find?_cons_of_neg (by simp [hw])] at found
      exact ih found

theorem findVar?_setVar {id : VarId} {u : Variable} (same : u.id = id) {fs : List (Frame Variable)}
    (found : findVar? id fs = some v) : findVar? id (setVar id u fs) = some u := by
  induction fs with
  | nil => cases found
  | cons f fs ih =>
    unfold findVar? at found
    unfold setVar
    cases here : f.local? id with
    | some w =>
      have stored : (f.setLocal id u).local? id = some u := by
        unfold local? setLocal
        rw [List.reverse_reverse]
        exact find?_replaceFirst (decide_eq_true same) here
      rw [Option.isSome_some, if_pos rfl]
      unfold findVar?
      rw [stored]
    | none =>
      rw [here] at found
      cases call : f.call with
      | true =>
        simp only [call, if_true] at found
        cases found
      | false =>
        simp only [call, Bool.false_eq_true, if_false] at found
        rw [Option.isSome_none, if_neg Bool.false_ne_true, if_neg Bool.false_ne_true]
        unfold findVar?
        rw [here]
        simp only [call, Bool.false_eq_true, if_false]
        exact ih found

theorem forall₂_keeps_declareVar (fs : List (Frame Variable)) (v : Variable) :
    List.Forall₂ Keeps fs (Frame.declareVar v fs) := by
  induction fs with
  | nil => exact .nil
  | cons f fs ih =>
    unfold Frame.declareVar
    split
    · exact .cons (f.keeps_declare v) (forall₂_keeps_refl fs)
    · exact .cons (.refl f) ih

theorem Enclosed.declares (h : Enclosed fs) (v : Variable) : Declared v.id (Frame.declareVar v fs) := by
  induction fs with
  | nil => exact h.elim
  | cons f fs ih =>
    unfold Frame.declareVar
    by_cases scope : f.scope = true
    · rw [if_pos scope]
      exact .inl ⟨scope, f.has_declare v⟩
    · rw [if_neg scope]
      rcases h with ⟨here, _⟩ | ⟨inner, h⟩
      · exact absurd here scope
      · exact .inr ⟨inner, ih h⟩

end Frame

namespace Machine

/-- The frames around an instruction stay the scopes that they are, with the variables that they have. -/
def Keeps (m n : Machine) : Prop := List.Forall₂ Frame.Keeps m.frames n.frames

namespace Keeps

variable {m n o : Machine}

theorem refl (m : Machine) : m.Keeps m := Frame.forall₂_keeps_refl _

theorem of_frames (same : n.frames = m.frames) : m.Keeps n := by
  unfold Keeps
  rw [same]
  exact Frame.forall₂_keeps_refl _

theorem trans (first : m.Keeps n) (second : n.Keeps o) : m.Keeps o := Frame.forall₂_keeps_trans first second

theorem outer (h : m.Keeps n) : List.Forall₂ Frame.Keeps m.frames.tail n.frames.tail := by
  have rest := List.forall₂_drop 1 h
  rwa [List.drop_one, List.drop_one] at rest

theorem modifyFrame (m : Machine) {g : Frame Variable → Frame Variable}
    (same : ∀ f, (g f).call = f.call ∧ (g f).locals = f.locals ∧ (f.scope = true → (g f).scope = true)) :
    m.Keeps (m.modifyFrame g) := by
  obtain ⟨_ | ⟨f, fs⟩, _⟩ := m
  · exact .nil
  · obtain ⟨call, locals, scope⟩ := same f
    exact .cons ⟨call, scope, fun ⟨v, hv, hx⟩ => ⟨v, locals ▸ hv, hx⟩⟩ (Frame.forall₂_keeps_refl fs)

theorem setVar (m : Machine) {id : VarId} {v : Variable} (same : v.id = id) : m.Keeps (m.setVar id v) := by
  have all := Frame.forall₂_keeps_setVar m.allFrames same
  have outer := List.forall₂_drop m.deeper.length all
  have frames : m.allFrames.drop m.deeper.length = m.frames := List.drop_left' (List.length_reverse ..)
  rwa [frames] at outer

theorem declare (m : Machine) (v : Variable) : m.Keeps (m.declare v) := by
  unfold Keeps Machine.declare
  cases hm : m.frames with
  | nil => exact .nil
  | cons f fs => exact .cons (.refl f) (Frame.forall₂_keeps_declareVar fs v)

end Keeps

theorem allFrames_setVar (m : Machine) (id : VarId) (u : Variable) :
    (m.setVar id u).allFrames = Frame.setVar id u m.allFrames := by
  unfold allFrames setVar
  dsimp only
  rw [List.reverse_reverse, List.take_append_drop]
  rfl

end Machine

namespace Exec

variable {α : Type}

theorem Plain.keeps {c : Exec α} (h : Plain (fun _ => True) c) (m : Machine) : m.Keeps (c m).2 := by
  induction h generalizing m with
  | seq _ _ first second => exact keep_seq .trans first second m
  | setFrame g same =>
    exact .modifyFrame m fun f => ⟨(same f).2.1, (same f).2.2.2.1, (same f).2.2.2.2⟩
  | setVar id v same => exact .setVar m same
  | declareVar v => exact .declare m v
  | _ => exact .refl _

end Exec

open Exec

variable {run : Instr → Machine → Result Variable → Prop} {p : Program} {room : Nat} {i : Instr} {m : Machine}

theorem Machine.Keeps.lasts (room : Nat) : Lasts room Keeps where
  refl := .refl
  trans := .trans
  plain := Plain.keeps
  place _ placed := by
    rw [eq_of_placeCallee?_eq_some placed]
    exact .of_frames rfl
  spend _ := .of_frames rfl
  record m id phase r := by
    have moved : m.Keeps (m.modifyFrame ({ · with index := r.state.toInt })) :=
      .modifyFrame m fun _ => ⟨rfl, rfl, fun h => h⟩
    exact moved

theorem Turn.keeps {r : Result (Option Variable)} (hr : ∀ c m r, run c m r → m.Keeps r.2)
    (h : Turn run p room i m r) : m.Keeps r.2 :=
  (Machine.Keeps.lasts room).turn hr h

theorem Turns.keeps {r : Result Variable} (hr : ∀ c m r, run c m r → m.Keeps r.2)
    (h : Turns run p room i m r) : m.Keeps r.2 :=
  (Machine.Keeps.lasts room).turns hr h

theorem Machine.keeps_of_enter? {inside : Machine} {node : NodeId} (hm : m.enter? node = some inside)
    {r : Result Variable} (h : inside.Keeps r.2) : m.Keeps (leaveFrame r).2 := by
  obtain ⟨f, deeper, _, _, rfl⟩ := m.enter?_frames hm
  obtain ⟨o, m'⟩ := r
  have outer := h.outer
  by_cases ho : o = .error .suspended
  · subst ho
    exact outer
  · rw [leaveFrame_of_running ho]
    exact outer

/-- What is declared around an instruction stays declared when it is executed. -/
theorem Executes.keeps {r : Result Variable} (h : Executes p room i m r) : m.Keeps r.2 := by
  refine h.induction (Q := fun _ _ m r => m.Keeps r.2) (fun {_ i} m _ => ?_) (fun m fault => ?_)
    (fun {room i m inside left} _ hm deeper turns => ?_)
  · have plain : Plain (fun _ => True) (leaf i) := .leaf trivial
    rw [settle_of_running (plain.ne_suspended m)]
    exact plain.keeps m
  · exact .of_frames rfl
  · exact Machine.keeps_of_enter? hm (turns.keeps deeper)

end Tickwise
