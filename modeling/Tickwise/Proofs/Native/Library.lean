import Tickwise.Proofs.Machine.ParallelMoves
set_option autoImplicit false

/-!
# The standard library depends on content

The natives of the library look at the values and the texts of their arguments and at the number of elements
of an array, whatever storage these are in, and answer values that refer to no storage.
-/
namespace Tickwise.Library

variable {R : Ref → Ref → Prop} {c d : NativeCall}

theorem arg_alike {α : Type} {read read' : Variable → Except Fault α} (h : c.Alike R d) (i : Nat)
    (same : ∀ v w : Variable, v.Alike R w → read v = read' w) :
    NativeCall.arg c i read = NativeCall.arg d i read' := by
  have slots := forall₂_getElem? h.args i
  unfold NativeCall.arg
  generalize c.args[i]? = o at slots
  generalize d.args[i]? = o' at slots
  cases slots with
  | none => rfl
  | some slot => rw [Option.map_some, Option.map_some, same _ _ slot]

theorem intArg_alike (h : c.Alike R d) (i : Nat) : intArg c i = intArg d i :=
  arg_alike h i fun _ _ slot => slot.toInt

theorem floatArg_alike (h : c.Alike R d) (i : Nat) : floatArg c i = floatArg d i :=
  arg_alike h i fun _ _ slot => slot.toFloat

theorem textArg_alike (h : c.Alike R d) (i : Nat) : textArg c i = textArg d i := by
  have crashes : (c.args[i]?).bind (c.heap.crash? .string) = (d.args[i]?).bind (d.heap.crash? .string) := by
    have slots := forall₂_getElem? h.args i
    generalize c.args[i]? = o at slots
    generalize d.args[i]? = o' at slots
    cases slots with
    | none => rfl
    | some slot => exact Heap.crash?_alike h.heap.alike slot .string
  have read : NativeCall.arg c i c.heap.toText = NativeCall.arg d i d.heap.toText :=
    arg_alike h i fun _ _ slot => h.heap.alike.toText slot
  unfold textArg
  rw [crashes, read]

theorem sizeOf_alike (h : c.Alike R d) : sizeOf c = sizeOf d := by
  have slots := forall₂_getElem? h.args 0
  unfold sizeOf
  generalize c.args[0]? = o at slots
  generalize d.args[0]? = o' at slots
  cases slots with
  | none => rfl
  | @some v w slot =>
    have array := slot.toArray
    rw [Option.map_some, Option.map_some]
    generalize v.toArray = a at array
    generalize w.toArray = b at array
    cases array with
    | ok paired => simp only [h.heap.size paired]
    | error same => rfl

theorem reply_alike (h : c.Alike R d) {o o' : NativeOutcome} (outcome : o.Alike R o') :
    (reply c o).Alike R (reply d o') :=
  ⟨outcome, h.state, h.heap, rfl⟩

theorem refusal_alike (h : c.Alike R d) (e : Refusal) : (reply c e.outcome).Alike R (reply d e.outcome) := by
  cases e with
  | fault code => exact reply_alike h (.fault code)
  | crash crash => exact reply_alike h (.crashed crash)

def Answer.Plain (a : Answer) : Prop := ∀ v, a = .ok v → v.value.storage? = none

namespace Answer

theorem plain_ok {v : Variable} (h : v.value.storage? = none) : Plain (.ok v) := by
  intro w hw
  cases hw
  exact h

theorem plain_bind {α : Type} {x : Except Refusal α} {f : α → Answer} (h : ∀ a, Plain (f a)) :
    Plain (x >>= f) := by
  cases x with
  | error e => nofun
  | ok a => exact h a

end Answer

theorem immediate_onContent (name : String) (params : List ParamType) (ret : Ty) {f : NativeCall → Answer}
    (same : ∀ {R c d}, NativeCall.Alike R c d → f c = f d) (plain : ∀ c, Answer.Plain (f c)) :
    NativeFn.DependsOnContent ⟨name, params, ret, immediate f⟩ := by
  intro R c d h
  refine ⟨R, le_refl R, ?_⟩
  change (immediate f c).Alike R (immediate f d)
  unfold immediate
  rw [same h]
  cases answer : f d with
  | error e => exact refusal_alike h e
  | ok v =>
    have none := plain d v answer
    exact reply_alike h (.done (.refl fun r hr => by rw [none] at hr; cases hr))

theorem wait_alike (h : c.Alike R d) : (wait c).Alike R (wait d) := by
  unfold wait
  rw [h.phase, h.state, intArg_alike h]
  have done : (NativeOutcome.done Slot.ofVoid).Alike R (.done Slot.ofVoid) := .done (.temp .void)
  cases d.phase with
  | start =>
    dsimp only
    cases intArg d 0 with
    | error e => exact refusal_alike h e
    | ok ticks =>
      dsimp only
      split
      · exact { reply_alike h .suspend with state := rfl }
      · exact reply_alike h done
  | resume =>
    dsimp only
    split
    · exact { reply_alike h .suspend with state := rfl }
    · exact { reply_alike h done with state := rfl }
  | cancel => exact { reply_alike h done with state := rfl }

theorem print_alike (report : String → Report) (h : c.Alike R d) :
    (print report c).Alike R (print report d) := by
  unfold print
  rw [textArg_alike h]
  cases textArg d 0 with
  | error e => exact refusal_alike h e
  | ok line =>
    have done : (NativeOutcome.done Slot.ofVoid).Alike R (.done Slot.ofVoid) := .done (.temp .void)
    exact { reply_alike h done with reports := rfl }

theorem natives_onContent (report : String → Report) : ∀ f ∈ natives report, f.DependsOnContent := by
  have one {α : Type} {x : Except Refusal α} {f : α → Variable} (h : ∀ a, (f a).value.storage? = none) :
      Answer.Plain (do return f (← x)) := Answer.plain_bind fun a => Answer.plain_ok (h a)
  have two {α β : Type} {x : Except Refusal α} {y : α → Except Refusal β} {f : α → β → Variable}
      (h : ∀ a b, (f a b).value.storage? = none) :
      Answer.Plain (do let a ← x; return f a (← y a)) := Answer.plain_bind fun a => one (h a)
  have three {α β γ : Type} {x : Except Refusal α} {y : Except Refusal β} {z : Except Refusal γ}
      {f : α → β → γ → Variable} (h : ∀ a b c, (f a b c).value.storage? = none) :
      Answer.Plain (do let a ← x; let b ← y; return f a b (← z)) := Answer.plain_bind fun a => two (h a)
  unfold natives
  simp only [List.forall_mem_cons]
  refine ⟨?abs, ?fabs, ?sqrt, ?floor, ?pow, ?strlen, ?strleft, ?strright, ?strmid, ?strmidToEnd, ?strval,
    ?strfind, ?sizeof, ?wait, ?print, nofun⟩
  case abs => exact immediate_onContent _ _ _ (fun h => by rw [intArg_alike h]) fun c => one fun _ => rfl
  case fabs | sqrt | floor =>
    exact immediate_onContent _ _ _ (fun h => by rw [floatArg_alike h]) fun c => one fun _ => rfl
  case strlen | strval =>
    exact immediate_onContent _ _ _ (fun h => by rw [textArg_alike h]) fun c => one fun _ => rfl
  case pow =>
    exact immediate_onContent _ _ _ (fun h => by rw [floatArg_alike h, floatArg_alike h]) fun c =>
      two fun _ _ => rfl
  case strleft | strright | strmidToEnd =>
    exact immediate_onContent _ _ _ (fun h => by rw [textArg_alike h, intArg_alike h]) fun c =>
      two fun _ _ => rfl
  case strfind =>
    exact immediate_onContent _ _ _ (fun h => by rw [textArg_alike h, textArg_alike h]) fun c =>
      two fun _ _ => rfl
  case strmid =>
    exact immediate_onContent _ _ _ (fun h => by rw [textArg_alike h, intArg_alike h, intArg_alike h]) fun c =>
      three fun _ _ _ => rfl
  case sizeof =>
    refine immediate_onContent _ _ _ sizeOf_alike fun c => ?_
    unfold sizeOf
    split <;> exact Answer.plain_ok rfl
  case wait => exact fun R c d h => ⟨R, le_refl R, wait_alike h⟩
  case print => exact fun R c d h => ⟨R, le_refl R, print_alike report h⟩

end Tickwise.Library
