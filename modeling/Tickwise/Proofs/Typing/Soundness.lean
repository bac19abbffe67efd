import Tickwise.Proofs.Compile.Comparison
import Tickwise.Proofs.Compile.Trees
import Tickwise.Proofs.Typing.Visits
set_option autoImplicit false

/-!
# Type soundness

Whatever an expression yields in a run is a value that its static type admits, elements and fields
included, and each place that a run follows leads to storage that exists.
-/
namespace Tickwise

open Exec Compile

namespace Heap

def AdmitsTo (h : Heap) (class? : String → Option ClassLayout) : (depth : Nat) → Ty → Value Ref → Prop
  | 0, _, _ => True
  | _ + 1, .void, v => v = .void
  | _ + 1, .bool, v => ∃ b, v = .bool b
  | _ + 1, .int, v => ∃ i, v = .int i
  | _ + 1, .float, v => ∃ x, v = .float x
  | _ + 1, .string, v => ∃ s, v = .string s
  | _ + 1, .null, v => v = .null
  | depth + 1, .array elem, v => v = .null ∨ ∃ r, v = .array r ∧ r < h.size ∧
      ∀ w ∈ h.elements r, w.value = .unassigned ∨ h.AdmitsTo class? depth elem w.value
  | depth + 1, .named c, v => v = .null ∨ ∃ r cls, v = .object c r ∧ r < h.size ∧
      class? c = some cls ∧ (h.elements r).size = cls.fields.length ∧
      ∀ (k : Nat) (f : Field) (w : Variable), cls.fields[k]? = some f → (h.elements r)[k]? = some w →
        w.value = .unassigned ∨ h.AdmitsTo class? depth f.ty w.value

/-- Is a value one that a type admits, however deep one looks? -/
def Admits (h : Heap) (class? : String → Option ClassLayout) (ty : Ty) (v : Value Ref) : Prop :=
  ∀ depth, h.AdmitsTo class? depth ty v

end Heap

theorem MarkedShapes.Describes.admits {S : MarkedShapes} {h : Heap} {class? : String → Option ClassLayout}
    (described : S.Describes h) (classes : S.class? = class?) {ty : Ty} {v : Value Ref}
    (hv : S.Has ty v) : h.Admits class? ty v := by
  intro depth
  induction depth generalizing ty v with
  | zero =>
    unfold Heap.AdmitsTo
    trivial
  | succ depth ih =>
    cases ty with
    | array elem =>
      rcases hv with null | ⟨r, value, at_⟩
      · exact .inl null
      · refine .inr ⟨r, value, described.bounded at_, fun w hw => ?_⟩
        have slot := MarkedShapes.fills_array.1 (described.fills at_) w hw
        exact slot.2.imp_right ih
    | named c =>
      rcases hv with null | ⟨r, cls, value, known, at_⟩
      · exact .inl null
      · obtain ⟨slots, size⟩ := described.fills at_
        refine .inr ⟨r, cls, value, described.bounded at_, classes ▸ known, size cls rfl, ?_⟩
        intro k f w hf hw
        obtain ⟨ty, slot, has⟩ := slots k w hw
        simp only [Shape.slot?, hf, Option.map_some, Option.some.injEq] at slot
        rw [slot]
        exact has.2.imp_right ih
    | _ => exact hv

inductive Level.Reads (lv : Level) : Compiler Operand → Prop
  | expression : Level.Reads lv lv.expression
  | ternary : Level.Reads lv lv.ternary
  | binary (floor : Nat) : Level.Reads lv (lv.binary floor)
  | unary : Level.Reads lv lv.unary
  | primary : Level.Reads lv lv.primary

/-- The compiler reports a static type for the instruction that it makes of an expression. -/
def Compiler.Reports (i : Instr) (ty : Ty) : Prop :=
  ∃ room routine ctx s constant, (Level.ofRoom room).Reads routine ∧
    (routine ctx s).1 = some ⟨i, ty, constant⟩

theorem Compiler.Reports.ty {i : Instr} {ty : Ty} (h : Compiler.Reports i ty) : i.ty = ty := by
  obtain ⟨room, routine, ctx, s, constant, reads, answer⟩ := h
  have typed := Level.typed_ofRoom room
  have gives : Gives ctx none routine (·.Yields ctx.ret ·) := by
    cases reads with
    | expression => exact typed.expression ctx none
    | ternary => exact typed.ternary ctx none
    | binary floor => exact typed.binary floor ctx none
    | unary => exact typed.unary ctx none
    | primary => exact typed.primary ctx none
  obtain ⟨_, _, _, yields⟩ := gives.answers (fun D hD => by cases hD) (Prod.ext answer rfl)
  exact yields.ty

theorem Instr.Typed.names {D : Declarations} {ret : Ty} {i : Instr} {place : Place Instr}
    (h : i.Typed D ret) (hp : i.place? = some place) : D.Names place := by
  have checks := h.checks
  unfold Instr.place? at hp
  split at hp
  case h_1 form =>
    cases hp
    rw [form] at checks
    exact checks
  case h_2 op _ _ form =>
    cases hp
    rw [form] at checks
    cases op <;> exact checks.1
  case h_3 form =>
    cases hp
    rw [form] at checks
    exact checks.1
  case h_4 => cases hp

theorem Declarations.Leads.take {D : Declarations} {path : List (Access Instr)} {src dst : Ty}
    (h : D.Leads src path dst) (n : Nat) : ∃ mid, D.Leads src (path.take n) mid := by
  induction path generalizing src n with
  | nil => exact ⟨src, by simp [Declarations.Leads]⟩
  | cons access path ih =>
    cases n with
    | zero => exact ⟨src, rfl⟩
    | succ n =>
      cases access with
      | index e elem =>
        obtain ⟨mid, leads⟩ := ih h.2 n
        exact ⟨mid, h.1, leads⟩
      | field k =>
        obtain ⟨c, cls, f, same, known, field, leads⟩ := h
        obtain ⟨mid, leads⟩ := ih leads n
        exact ⟨mid, c, cls, f, same, known, field, leads⟩

theorem Machine.Typed.bounded {D : Declarations} {ret : Ty} {i : Instr} {S : MarkedShapes} {m m' : Machine}
    {place : Place Instr} {span : Span} {grow : Bool} {indices : List Variable} {n k : Nat} {r : Ref}
    (hm : m.Typed D S) (hi : i.Typed D ret) (hp : i.place? = some place)
    (reached : follow span grow (place.path.take n) indices (.var place.root) m =
      (.ok (.cell r k), m')) : k < (m'.heap.elements r).size := by
  obtain ⟨root, declared, leads⟩ := hi.names hp
  obtain ⟨mid, leads⟩ := leads.take n
  have owned : S.Owns D m.heap root (.var place.root) := declared
  have sound : Sound D ret (fun S' m' storage => S'.Owns D m'.heap mid storage) (fun _ _ => False) S
      (follow span grow (place.path.take n) indices (.var place.root) m) := .follow hm owned leads
  rw [reached] at sound
  obtain ⟨_, _, _, inside, _⟩ := sound
  exact inside

namespace Program

/-- In a run of a compiled program whose natives keep to their types, what an expression yields is a
value that its static type admits, and each place is followed to storage that exists. -/
theorem values_admitted {id source : String} {env : Environment} {p : Program}
    (compiled : Program.ofSource id env source = .ok p)
    (natives : ∀ f ∈ p.env.natives.natives, f.KeepsTypes p.class?) {x : Execution Variable}
    {s : Session} (runs : p.Runs x s) (budget : Nat) :
    (∀ room i ty m v m', (p.withSteps budget).Visits x s room i m → Compiler.Reports i ty →
      exec (p.withSteps budget) room i m = (.ok v, m') → m'.heap.Admits p.class? ty v.value) ∧
    ∀ i place m span grow n indices r k m', (p.withSteps budget).Handles x s i m →
      i.place? = some place →
      follow span grow (place.path.take n) indices (.var place.root) m = (.ok (.cell r k), m') →
      k < (m'.heap.elements r).size := by
  obtain ⟨D, typed⟩ := typed_ofTokens compiled
  have classes : D.class? = p.class? := (funext typed.classes).symm
  have hp : p.Keeps D .loose := by
    refine ⟨typed, fun {native f} known => ?_⟩
    rw [classes]
    rw [← typed.natives] at known
    exact (natives f (List.mem_of_getElem? known)).loose
  constructor
  · rintro room i ty m v m' ⟨f, y, prepared, visits⟩ reports ended
    obtain ⟨S, hp, start⟩ := runs.before hp prepared
    obtain ⟨ret, S₁, hp, before⟩ := visits.before (hp.withSteps budget) start
    obtain ⟨S₂, _, typed', temp⟩ := ((p.withSteps budget).deeper D room).sound hp before ended
    rw [← reports.ty]
    exact typed'.heap.admits (typed'.classes.trans classes) temp.2
  · rintro i place m span grow n indices r k m' ⟨f, y, prepared, handles⟩ hplace reached
    obtain ⟨S, hp, start⟩ := runs.before hp prepared
    obtain ⟨ret, S₁, hi, hm⟩ := handles.typed (hp.withSteps budget) start
    exact hm.bounded hi hplace reached

/-!
A program that hands its array of integers to a native, for which all arrays are alike and which answers
an array of floats. The program then writes an integer to its own array and reads the other one.
-/
namespace Sharing

def source : String := "float[] main() { int a[]; float[] b = same(a); a[0] = 1; return b; }"

def environment (handler : NativeCall → NativeReply) : Environment :=
  { Environment.empty with natives := ⟨[⟨"same", [.anyArray], .array .float, handler⟩]⟩ }

def answer : Instr := .mk 11 ⟨64, 65⟩ (.load ⟨2, "b", [], .array .float⟩)

def body : Instr :=
  .mk 13 ⟨15, 16⟩ (.block [
    .mk 1 ⟨17, 20⟩ (.declList [.mk 0 ⟨21, 22⟩ (.declare 1 "a" (.array .int) [] none)]),
    .mk 5 ⟨26, 31⟩ (.declList [.mk 4 ⟨34, 35⟩ (.declare 2 "b" (.array .float) [] (some
      (.mk 3 ⟨38, 42⟩ (.call (.native 0) [.mk 2 ⟨43, 44⟩ (.load ⟨1, "a", [], .array .int⟩)]
        (.array .float)))))]),
    .mk 10 ⟨52, 53⟩ (.store ⟨1, "a", [.index (.mk 7 ⟨49, 50⟩ (.literal (Slot.ofInt 0))) .int], .int⟩
      none .int (.mk 9 ⟨54, 55⟩ (.literal (Slot.ofInt 1)))),
    .mk 12 ⟨57, 63⟩ (.ret (some answer))])

def main : Function := ⟨0, "main", [], .array .float, body, false, ⟨8, 12⟩⟩

def program (handler : NativeCall → NativeReply) : Program :=
  ⟨"sharing", [main], [], 14, environment handler⟩

def begun : Execution Variable := .begin "sharing" 0 main []

variable {handler : NativeCall → NativeReply}

theorem reports : Compiler.Reports answer (.array .float) := by
  let b : Variable := (Slot.fresh (.array .float)).declaredAs "b" 2
  let scopes : ScopeStack := ⟨[⟨true, [b], none, none⟩], none, [], .empty, 3⟩
  let s : State := ⟨[⟨.identifier, "b", ⟨64, 65⟩⟩], scopes, 11⟩
  exact ⟨1, _, unitContext .empty [], s, none, .primary, rfl⟩

def last? (handler : NativeCall → NativeReply) : Option (Nat × Instr × Machine) :=
  visit? (program handler) [7, 0] 200 body ((program handler).machine begun .empty)

def value? (handler : NativeCall → NativeReply) : Option (Except Interrupt Variable × Heap) :=
  (last? handler).map fun (room, i, m) =>
    ((exec (program handler) room i m).1, (exec (program handler) room i m).2.heap)

theorem visits {v : Variable} {h : Heap} (code : (last? handler).map (·.2.1) = some answer)
    (value : value? handler = some (.ok v, h)) :
    ∃ room m m', ((program handler).withSteps 100).Visits begun .empty room answer m ∧
      exec ((program handler).withSteps 100) room answer m = (.ok v, m') ∧ m'.heap = h := by
  obtain ⟨⟨room, i, m⟩, found, rfl⟩ := Option.map_eq_some_iff.1 code
  simp only [value?, found, Option.map_some, Option.some.injEq, Prod.mk.injEq] at value
  have prepared : (program handler).prepare begun .empty = .inr (main, begun) := rfl
  exact ⟨room, m, _, ⟨main, begun, prepared, .of_visit? .root found⟩, Prod.ext value.1 rfl, value.2⟩

def fresh (c : NativeCall) : NativeReply :=
  let (v, h) := c.heap.newArray .float []
  ⟨.done v, c.state, h, []⟩

theorem fresh_keepsTypes (class? : String → Option ClassLayout) :
    NativeFn.KeepsTypes ⟨"same", [.anyArray], .array .float, fresh⟩ class? := by
  intro S c _ described _
  let T : MarkedShapes := ⟨S, .loose⟩
  have typed : T.Describes c.heap := Shapes.describes_loose.2 described
  have filled : T.Fills (.array .float) #[] := MarkedShapes.fills_array.2 (by simp)
  have after : (T.alloc c.heap (.array .float)).Describes (c.heap.alloc #[]).2 := typed.alloc filled
  refine ⟨(T.alloc c.heap (.array .float)).toShapes, (typed.le_alloc _).toLe,
    Shapes.describes_loose.1 after, ?_⟩
  intro v done
  cases done
  exact .inr ⟨c.heap.size, rfl, T.alloc_at ..⟩

theorem compiled_fresh : ofSource "sharing" (environment fresh) source = .ok (program fresh) :=
  ofSource_eq 20 (by decide +kernel) rfl

theorem values_admitted_fresh :
    ofSource "sharing" (environment fresh) source = .ok (program fresh) ∧
    (∀ f ∈ (program fresh).env.natives.natives, f.KeepsTypes (program fresh).class?) ∧
    (program fresh).Runs begun .empty ∧
    ∃ room m m' v, ((program fresh).withSteps 100).Visits begun .empty room answer m ∧
      Compiler.Reports answer (.array .float) ∧
      exec ((program fresh).withSteps 100) room answer m = (.ok v, m') ∧
      v.value = .array 1 ∧ m'.heap.Admits (program fresh).class? (.array .float) v.value := by
  have natives : ∀ f ∈ (program fresh).env.natives.natives, f.KeepsTypes (program fresh).class? := by
    intro f hf
    rw [List.mem_singleton.1 hf]
    exact fresh_keepsTypes _
  have accepts : (program fresh).Accepts main [] .empty :=
    ⟨⟨_, fun _ => none⟩, rfl, ⟨nofun, nofun⟩, .nil⟩
  have runs : (program fresh).Runs begun .empty := .start ⟨0, main, [], rfl, accepts, rfl⟩
  let v : Variable := Slot.temp (.array .float) (.array 1)
  have code : (last? fresh).map (·.2.1) = some answer := Instr.eq_some_of_same 20 (by decide +kernel)
  have value : value? fresh = some (.ok v, ⟨#[#[Slot.ofInt 1], #[]]⟩) := by decide +kernel
  obtain ⟨room, m, m', visits, ended, _⟩ := visits code value
  have admitted := (values_admitted compiled_fresh natives runs 100).1 room answer _ m v m' visits reports ended
  exact ⟨compiled_fresh, natives, runs, room, m, m', v, visits, reports, ended, rfl, admitted⟩

def share (c : NativeCall) : NativeReply :=
  let value := match (c.args.headD Slot.ofVoid).value with
    | .array r => if r < c.heap.size ∧ c.heap.elements r = #[] then .array r else .null
    | _ => .null
  ⟨.done (Slot.temp (.array .float) value), c.state, c.heap, []⟩

theorem share_admits (class? : String → Option ClassLayout) (c : NativeCall) {elem : Ty} {v : Variable}
    (done : (share c).outcome = .done v) : (share c).heap.Admits class? (.array elem) v.value := by
  intro depth
  cases depth with
  | zero =>
    unfold Heap.AdmitsTo
    trivial
  | succ depth =>
    cases done
    dsimp only [Slot.temp]
    split
    case h_1 r _ =>
      split
      case isTrue empty =>
        refine .inr ⟨r, rfl, empty.1, fun w hw => ?_⟩
        rw [show (share c).heap = c.heap from rfl, empty.2] at hw
        simp at hw
      case isFalse => exact .inl rfl
    case h_2 => exact .inl rfl

theorem compiled_share : ofSource "sharing" (environment share) source = .ok (program share) :=
  ofSource_eq 20 (by decide +kernel) rfl

/-- It is not enough that each value that a native answers is one that its result type admits then: a
native may share storage at another type. -/
theorem values_not_admitted_share :
    ofSource "sharing" (environment share) source = .ok (program share) ∧
    (∀ f ∈ (program share).env.natives.natives, ∀ c v, (f.handler c).outcome = .done v →
      (f.handler c).heap.Admits (program share).class? f.ret v.value) ∧
    (program share).startFunction? 0 [] .empty = some begun ∧
    ∃ room m m' v, ((program share).withSteps 100).Visits begun .empty room answer m ∧
      Compiler.Reports answer (.array .float) ∧
      exec ((program share).withSteps 100) room answer m = (.ok v, m') ∧
      ¬ m'.heap.Admits (program share).class? (.array .float) v.value := by
  have natives : ∀ f ∈ (program share).env.natives.natives, ∀ c v,
      (f.handler c).outcome = .done v →
        (f.handler c).heap.Admits (program share).class? f.ret v.value := by
    intro f hf c v done
    cases List.mem_singleton.1 hf
    exact share_admits _ c done
  let v : Variable := Slot.temp (.array .float) (.array 0)
  have code : (last? share).map (·.2.1) = some answer := Instr.eq_some_of_same 20 (by decide +kernel)
  have value : value? share = some (.ok v, ⟨#[#[Slot.ofInt 1]]⟩) := by decide +kernel
  obtain ⟨room, m, m', visits, ended, heap⟩ := visits code value
  refine ⟨compiled_share, natives, rfl, room, m, m', v, visits, reports, ended, fun admitted => ?_⟩
  rw [heap] at admitted
  rcases admitted 2 with null | ⟨r, same, _, elements⟩
  · cases null
  · cases same
    rcases elements (Slot.ofInt 1) (by simp [Heap.elements]) with unassigned | ⟨x, float⟩
    · cases unassigned
    · cases float

end Sharing
end Program
end Tickwise
