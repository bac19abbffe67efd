import Mathlib.Data.List.MinMax
import Mathlib.Order.Nat
import Tickwise.Proofs.Storage.Text
import Tickwise.Value.Convert
set_option autoImplicit false

/-!
# Layout of texts

A text is laid out as a tree, in which no object is expanded inside another one. A slot has a text exactly if it has
such a tree.
-/
namespace Tickwise

theorem mapM_map {α β γ : Type} (f : α → Option β) (g : β → γ) (as : List α) :
    as.mapM (fun a => (f a).map g) = (as.mapM f).map (List.map g) := by
  induction as with
  | nil => rfl
  | cons a as ih =>
    rw [List.mapM_cons, List.mapM_cons, ih]
    cases f a <;> cases as.mapM f <;> rfl

theorem mapM_zipWith {α β γ δ : Type} (f : α → Option β) (name : α → γ) (g : γ → β → δ) (as : List α) :
    as.mapM (fun a => (f a).map (g (name a))) = (as.mapM f).map (List.zipWith g (as.map name)) := by
  induction as with
  | nil => rfl
  | cons a as ih =>
    rw [List.mapM_cons, List.mapM_cons, ih]
    cases f a <;> cases as.mapM f <;> rfl

theorem forall₂_of_mapM {α β : Type} {f : α → Option β} {as : List α} {bs : List β} (h : as.mapM f = some bs) :
    as.Forall₂ (fun a b => f a = some b) bs := by
  induction as generalizing bs with
  | nil =>
    cases h
    exact .nil
  | cons a as ih =>
    rw [List.mapM_cons] at h
    obtain ⟨first, found, h⟩ := Option.bind_eq_some_iff.1 h
    obtain ⟨rest, others, h⟩ := Option.bind_eq_some_iff.1 h
    cases h
    exact .cons found (ih others)

/-- What a text consists of. -/
inductive Layout where
  | plain (text : String)
  | array (parts : List Layout)
  | object (cls : String) (names : List String) (parts : List Layout)
  /-- An object that is only named. -/
  | closed (cls : String)

namespace Layout

def text : Layout → String
  | plain s => s
  | array parts => "\x7b" ++ String.intercalate ", " (parts.map text) ++ "\x7d"
  | object cls names parts =>
    cls ++ "(" ++ String.intercalate ", " (List.zipWith (fun name part => name ++ "=" ++ part) names (parts.map text)) ++ ")"
  | closed cls => cls ++ "(..)"

def depth : Layout → Nat
  | plain _ | closed _ => 0
  | array parts => (parts.map depth).foldr max 0
  | object _ _ parts => (parts.map depth).foldr max 0 + 1

end Layout

namespace Heap

def layout (h : Heap) : (fuel : Nat) → (insideObject : Bool) → Variable → Option Layout
  | 0, _, v => v.value.scalarText?.map .plain
  | fuel + 1, insideObject, v =>
    match v.value with
    | .array r => ((h.elements r).toList.mapM (h.layout fuel insideObject)).map .array
    | .object cls r =>
      if insideObject then some (.closed cls)
      else ((h.elements r).toList.mapM (h.layout fuel true)).map
        (.object cls ((h.elements r).toList.map fun field => field.name.getD "?"))
    | value => value.scalarText?.map .plain

variable {h : Heap} {v : Variable} {fuel : Nat} {insideObject : Bool} {o : Layout}

theorem render_eq_layout (h : Heap) (fuel : Nat) (insideObject : Bool) (v : Variable) :
    h.render fuel insideObject v = (h.layout fuel insideObject v).map Layout.text := by
  induction fuel generalizing insideObject v with
  | zero =>
    unfold render layout
    cases v.value.scalarText? <;> simp [Layout.text]
  | succ fuel ih =>
    unfold render layout
    cases v.value with
    | array r =>
      dsimp only
      rw [funext (ih insideObject), mapM_map]
      cases (h.elements r).toList.mapM (h.layout fuel insideObject) <;> simp [Layout.text]
    | object cls r =>
      cases insideObject with
      | true => simp [Layout.text]
      | false =>
        have field (e : Variable) : (do return e.name.getD "?" ++ "=" ++ (← h.render fuel true e)) =
            (h.layout fuel true e).map fun part => e.name.getD "?" ++ "=" ++ part.text := by
          rw [ih]
          cases h.layout fuel true e <;> rfl
        dsimp only
        rw [if_neg Bool.false_ne_true, if_neg Bool.false_ne_true, funext field,
          mapM_zipWith (h.layout fuel true) (fun e => e.name.getD "?") fun name part => name ++ "=" ++ part.text]
        cases (h.elements r).toList.mapM (h.layout fuel true) <;> simp [Layout.text, List.zipWith_map_right]
    | _ => simp [Value.scalarText?, Layout.text]

theorem depth_layout (laid : h.layout fuel insideObject v = some o) : o.depth ≤ if insideObject then 0 else 1 := by
  have scalar {value : Value Ref} {o : Layout} (plain : value.scalarText?.map Layout.plain = some o) : o.depth = 0 := by
    obtain ⟨t, _, rfl⟩ := Option.map_eq_some_iff.1 plain
    rw [Layout.depth]
  have all {fuel : Nat} {insideObject : Bool} {parts : List Layout} {vs : List Variable} {n : Nat}
      (ih : ∀ {v o}, h.layout fuel insideObject v = some o → o.depth ≤ n)
      (made : vs.mapM (h.layout fuel insideObject) = some parts) : (parts.map Layout.depth).foldr max 0 ≤ n := by
    refine List.max_le_of_forall_le (parts.map Layout.depth) n fun d hd => ?_
    obtain ⟨part, hpart, rfl⟩ := List.mem_map.1 hd
    obtain ⟨e, _, laid⟩ := forall₂_exists_left (forall₂_of_mapM made) hpart
    exact ih laid
  induction fuel generalizing insideObject v o with
  | zero => exact (scalar laid).trans_le (Nat.zero_le _)
  | succ fuel ih =>
    unfold layout at laid
    cases hv : v.value with rw [hv] at laid
    | array r =>
      obtain ⟨parts, made, rfl⟩ := Option.map_eq_some_iff.1 laid
      rw [Layout.depth]
      exact all ih made
    | object cls r =>
      cases insideObject with
      | true =>
        cases laid
        rw [Layout.depth]
        exact Nat.zero_le _
      | false =>
        obtain ⟨parts, made, rfl⟩ := Option.map_eq_some_iff.1 laid
        rw [Layout.depth]
        exact Nat.succ_le_succ (all ih made)
    | _ => exact (scalar laid).trans_le (Nat.zero_le _)

theorem isSome_render_textFuel (h : Heap) (insideObject : Bool) (v : Variable) :
    (h.render h.textFuel insideObject v).isSome = match v.value with
      | .array r => h.legible h.textFuel insideObject r
      | .object _ r => insideObject || h.legible h.textFuel true r
      | _ => true := by
  refine Eq.trans ?_ (isSome_render_succ h.textFuel insideObject v)
  rw [Bool.eq_iff_iff, Option.isSome_iff_exists, Option.isSome_iff_exists]
  exact ⟨fun ⟨t, rendered⟩ => ⟨t, render_succ rendered⟩, fun ⟨t, rendered⟩ => ⟨t, render_textFuel rendered⟩⟩

theorem render_eq_none {r : Ref} {e : Variable} (entry : e ∈ h.elements r) (self : e.value = .array r)
    (value : v.value = .array r) (fuel : Nat) (insideObject : Bool) : h.render fuel insideObject v = none := by
  induction fuel generalizing v with
  | zero =>
    unfold render
    rw [value]
    rfl
  | succ fuel ih =>
    rw [← Option.isNone_iff_eq_none, ← Option.not_isSome, isSome_render_succ, value]
    have mute : h.legible fuel insideObject r = false := by
      refine List.all_eq_false.2 ⟨e, Array.mem_toList_iff.2 entry, ?_⟩
      rw [ih self]
      exact Bool.false_ne_true
    dsimp only
    rw [mute]
    rfl

/-- The text of a slot is that of a layout, without a limit on the references that are followed. -/
structure Rendered (h : Heap) (v : Variable) (o : Layout) : Prop where
  layout : h.layout h.textFuel false v = some o
  depth : o.depth ≤ 1
  ends : ∀ fuel, h.textFuel ≤ fuel → h.render fuel false v = some o.text
  text : h.text? v = some o.text
  toText : h.toText v = if v.isInit then .ok o.text else .error .uninitialized

theorem exists_rendered (ends : (h.render fuel false v).isSome = true) : ∃ o, h.Rendered v o := by
  obtain ⟨t, some⟩ := Option.isSome_iff_exists.1 ends
  have rendered := render_textFuel some
  have made := rendered
  rw [render_eq_layout] at made
  obtain ⟨o, laid, rfl⟩ := Option.map_eq_some_iff.1 made
  have text : h.text v = o.text := congrArg (·.getD "") rendered
  refine ⟨o, laid, depth_layout laid, fun more le => render_of_le le rendered, rendered, ?_⟩
  unfold Heap.toText Slot.isInit
  rw [← text]
  cases hv : v.value with
  | string s =>
    have own : h.text v = s := by
      unfold Heap.text text? textFuel render
      rw [hv]
      rfl
    rw [own]
    rfl
  | _ => rfl

end Heap
end Tickwise
