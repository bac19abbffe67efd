import Tickwise.Native.Library
import Tickwise.Proofs.Storage.Text
set_option autoImplicit false

/-!
# Plain natives

The natives of the library leave storage as it is and answer plain values of their types, without a label and without
storage. They return unless an argument has no text, and what was invoked before makes no difference to them.
-/
namespace Tickwise

def NativeCall.Unwritable (c : NativeCall) : Prop := ∃ v ∈ c.args, c.heap.text? v = none

/-- The native leaves storage alone, answers values of its type without label or storage, does not look at the journal,
and dies of nothing but an argument that has no text. -/
structure NativeFn.Plain (f : NativeFn) : Prop where
  heap : ∀ c, (f.handler c).heap = c.heap
  label : ∀ c v, (f.handler c).outcome = .done v → v.label = none
  storage : ∀ c v, (f.handler c).outcome = .done v → v.value.storage? = none
  fits : ∀ c v, (f.handler c).outcome = .done v → v.isInit = true ∧ v.value.fits f.ret = true
  crashed : ∀ c crash, (f.handler c).outcome = .crashed crash → c.Unwritable
  journal : ∀ c j, f.handler { c with journal := j } = f.handler c

namespace Library

/-- A slot with a value of a type, and without a label or storage. -/
structure Bare (ret : Ty) (v : Variable) : Prop where
  label : v.label = none
  storage : v.value.storage? = none
  init : v.isInit = true
  fits : v.value.fits ret = true

theorem bare_int (i : Int32) : Bare .int (Slot.ofInt i) := ⟨rfl, rfl, rfl, rfl⟩

theorem bare_float (x : Binary32) : Bare .float (Slot.ofFloat x) := ⟨rfl, rfl, rfl, rfl⟩

theorem bare_string (s : String) : Bare .string (Slot.ofString s) := ⟨rfl, rfl, rfl, rfl⟩

theorem bare_void : Bare .void Slot.ofVoid := ⟨rfl, rfl, rfl, rfl⟩

section

variable {α : Type} {c : NativeCall} {ret : Ty}

/-- The arguments are read, or one that cannot be used is reported, unless one has no text. -/
def Reads (c : NativeCall) (x : Except Refusal α) : Prop := ∀ crash, x = .error (.crash crash) → c.Unwritable

theorem reads_arg (c : NativeCall) (i : Nat) (read : Variable → Except Fault α) : Reads c (NativeCall.arg c i read) := by
  intro crash refused
  unfold NativeCall.arg at refused
  split at refused <;> cases refused

theorem reads_textArg (c : NativeCall) (i : Nat) : Reads c (textArg c i) := by
  intro crash refused
  unfold textArg at refused
  split at refused
  case h_1 crash' found =>
    obtain ⟨v, arg, crashes⟩ := Option.bind_eq_some_iff.1 found
    exact ⟨v, List.mem_of_getElem? arg, Heap.text?_of_crash? crashes⟩
  case h_2 => exact reads_arg c i _ crash refused

def Replies (c : NativeCall) (ret : Ty) : NativeOutcome → Prop
  | .done v => Bare ret v
  | .crashed _ => c.Unwritable
  | _ => True

def Answer.Bare (c : NativeCall) (ret : Ty) : Answer → Prop
  | .ok v => Library.Bare ret v
  | .error refusal => Replies c ret refusal.outcome

theorem Reads.replies {x : Except Refusal α} {refusal : Refusal} (hx : Reads c x) (refused : x = .error refusal) :
    Replies c ret refusal.outcome := by
  cases refusal with
  | fault code => trivial
  | crash crash => exact hx crash refused

theorem Answer.bare_bind {x : Except Refusal α} {f : α → Answer} (hx : Reads c x) (h : ∀ a, (f a).Bare c ret) :
    Answer.Bare c ret (x >>= f) := by
  cases x with
  | error refusal => exact hx.replies rfl
  | ok a => exact h a

end

theorem plain_of_replies {f : NativeFn} (heap : ∀ c, (f.handler c).heap = c.heap)
    (replies : ∀ c, Replies c f.ret (f.handler c).outcome)
    (journal : ∀ c j, f.handler { c with journal := j } = f.handler c) : f.Plain := by
  have done {c : NativeCall} {v : Variable} (h : (f.handler c).outcome = .done v) : Bare f.ret v := by
    have bare := replies c
    rw [h] at bare
    exact bare
  refine ⟨heap, fun c v h => (done h).label, fun c v h => (done h).storage, fun c v h => ⟨(done h).init, (done h).fits⟩,
    fun c crash h => ?_, journal⟩
  have unwritable := replies c
  rw [h] at unwritable
  exact unwritable

theorem immediate_plain (name : String) (params : List ParamType) (ret : Ty) {f : NativeCall → Answer}
    (bare : ∀ c, (f c).Bare c ret) (journal : ∀ c j, f { c with journal := j } = f c) :
    NativeFn.Plain ⟨name, params, ret, immediate f⟩ := by
  refine plain_of_replies (fun c => ?_) (fun c => ?_) fun c j => ?_
  · change (immediate f c).heap = c.heap
    unfold immediate
    split <;> rfl
  · change Replies c ret (immediate f c).outcome
    have bare := bare c
    unfold immediate
    cases answer : f c with
    | ok v =>
      rw [answer] at bare
      exact bare
    | error refusal =>
      rw [answer] at bare
      exact bare
  · change immediate f { c with journal := j } = immediate f c
    unfold immediate
    rw [journal]
    rfl

theorem wait_plain (name : String) (params : List ParamType) : NativeFn.Plain ⟨name, params, .void, wait⟩ := by
  refine plain_of_replies (fun c => ?_) (fun c => ?_) fun c j => rfl
  · change (wait c).heap = c.heap
    unfold wait
    split
    · split
      · split <;> rfl
      · rfl
    · rfl
    · rfl
  · change Replies c .void (wait c).outcome
    unfold wait
    split
    · split
      · split
        · trivial
        · exact bare_void
      case h_2 refusal refused => exact (reads_arg c 0 _).replies refused
    · dsimp only [reply]
      split
      · trivial
      · exact bare_void
    · exact bare_void

theorem print_plain (name : String) (params : List ParamType) (report : String → Report) :
    NativeFn.Plain ⟨name, params, .void, print report⟩ := by
  refine plain_of_replies (fun c => ?_) (fun c => ?_) fun c j => rfl
  · change (print report c).heap = c.heap
    unfold print
    split <;> rfl
  · change Replies c .void (print report c).outcome
    unfold print
    split
    · exact bare_void
    case h_2 refusal refused => exact (reads_textArg c 0).replies refused

theorem natives_plain (report : String → Report) : ∀ f ∈ natives report, f.Plain := by
  have one {α : Type} {c : NativeCall} {ret : Ty} {x : Except Refusal α} {f : α → Variable} (hx : Reads c x)
      (h : ∀ a, Bare ret (f a)) : Answer.Bare c ret (do return f (← x)) := Answer.bare_bind hx h
  have two {α β : Type} {c : NativeCall} {ret : Ty} {x : Except Refusal α} {y : Except Refusal β} {f : α → β → Variable}
      (hx : Reads c x) (hy : Reads c y) (h : ∀ a b, Bare ret (f a b)) :
      Answer.Bare c ret (do let a ← x; return f a (← y)) :=
    Answer.bare_bind hx fun a => one hy (h a)
  unfold natives
  simp only [List.forall_mem_cons]
  refine ⟨?abs, ?fabs, ?sqrt, ?floor, ?pow, ?strlen, ?strleft, ?strright, ?strmid, ?strmidToEnd, ?strval,
    ?strfind, ?sizeof, ?wait, ?print, nofun⟩
  case abs => exact immediate_plain _ _ _ (fun c => one (reads_arg c 0 _) fun _ => bare_int _) fun _ _ => rfl
  case strlen => exact immediate_plain _ _ _ (fun c => one (reads_textArg c 0) fun _ => bare_int _) fun _ _ => rfl
  case fabs | sqrt | floor =>
    exact immediate_plain _ _ _ (fun c => one (reads_arg c 0 _) fun _ => bare_float _) fun _ _ => rfl
  case strval => exact immediate_plain _ _ _ (fun c => one (reads_textArg c 0) fun _ => bare_float _) fun _ _ => rfl
  case pow =>
    exact immediate_plain _ _ _ (fun c => two (reads_arg c 0 _) (reads_arg c 1 _) fun _ _ => bare_float _) fun _ _ => rfl
  case strleft | strright | strmidToEnd =>
    exact immediate_plain _ _ _ (fun c => two (reads_textArg c 0) (reads_arg c 1 _) fun _ _ => bare_string _)
      fun _ _ => rfl
  case strfind =>
    exact immediate_plain _ _ _ (fun c => two (reads_textArg c 0) (reads_textArg c 1) fun _ _ => bare_int _)
      fun _ _ => rfl
  case strmid =>
    refine immediate_plain _ _ _ (fun c => Answer.bare_bind (reads_textArg c 0) fun _ => ?_) fun _ _ => rfl
    exact two (reads_arg c 1 _) (reads_arg c 2 _) fun _ _ => bare_string _
  case sizeof =>
    refine immediate_plain _ _ _ (fun c => ?_) fun _ _ => rfl
    unfold sizeOf
    split <;> exact bare_int _
  case wait => exact wait_plain _ _
  case print => exact print_plain _ _ report

end Library
end Tickwise
