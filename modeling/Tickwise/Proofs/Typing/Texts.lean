import Tickwise.Proofs.Storage.Layout
import Tickwise.Proofs.Typing.Soundness
import Tickwise.Proofs.Typing.Tags
set_option autoImplicit false

/-!
# Texts of typed storage

Arrays of typed storage are nested no deeper than their types, and an object within an object is only named. So
whatever a run gets hold of has a text, even where objects reach themselves.
-/
namespace Tickwise

open Exec

namespace Program

variable {p : Program} {x : Execution Variable} {s : Session}

/-- In a run of a compiled program whose natives keep to their types, all that a variable, an operand, a result or the
value of an instruction holds has a text, in which no object is expanded inside another one. -/
theorem rendering_ends {id source : String} {env : Environment} (compiled : ofSource id env source = .ok p)
    (natives : ∀ f ∈ p.env.natives.natives, f.KeepsTypes p.class?) (runs : p.Runs x s) :
    (∀ v ∈ x.slots, ∀ w, s.heap.Holds v w → ∃ o, s.heap.Rendered w o) ∧ ∀ budget,
      (∀ i m, (p.withSteps budget).Handles x s i m →
        ∀ f ∈ m.allFrames, ∀ v ∈ f.slots, ∀ w, m.heap.Holds v w → ∃ o, m.heap.Rendered w o) ∧
      ∀ room i m v m', (p.withSteps budget).Visits x s room i m →
        exec (p.withSteps budget) room i m = (.ok v, m') → ∀ w, m'.heap.Holds v w → ∃ o, m'.heap.Rendered w o := by
  obtain ⟨D, hp⟩ := keeps_ofTokens compiled fun f hf => (natives f hf).loose
  have texts {S : MarkedShapes} {h : Heap} {ty : Ty} {v : Variable} (described : S.Describes h) (hv : S.HasSlot ty v)
      (w : Variable) (held : h.Holds v w) : ∃ o, h.Rendered w o := by
    obtain ⟨_, slot⟩ := hv.held described held
    exact slot.rendered described
  refine ⟨?_, fun budget => ⟨?_, ?_⟩⟩
  · intro v hv
    obtain ⟨S, _, stands⟩ := runs.stands hp
    obtain ⟨described, slots⟩ := stands.slots
    obtain ⟨_, slot⟩ := slots v hv
    exact texts described slot
  · rintro i m ⟨f, y, prepared, handles⟩ g hg v hv
    obtain ⟨S, hp, start⟩ := runs.before hp prepared
    obtain ⟨_, _, _, typed⟩ := handles.typed (hp.withSteps budget) start
    obtain ⟨_, slot⟩ := (typed.allFrames g hg).slots v hv
    exact texts typed.heap slot
  · rintro room i m v m' ⟨f, y, prepared, visits⟩ ended
    obtain ⟨S, hp, start⟩ := runs.before hp prepared
    obtain ⟨_, _, hp, before⟩ := visits.before (hp.withSteps budget) start
    obtain ⟨_, _, typed, temp⟩ := ((p.withSteps budget).deeper D room).sound hp before ended
    exact texts typed.heap temp.slot

/-!
A program that makes an object which reaches itself through an array.
-/
namespace Cyclic

def source : String := "N main() { N n = new N; N a[] = { n }; n.all = a; return n; }"

def node : ClassLayout := ⟨"N", [⟨"all", .array (.named "N")⟩]⟩

def environment : Environment := { Environment.empty with classes := [node] }

def main : Function :=
  let object : Form Instr := .load ⟨1, "n", [], .named "N"⟩
  ⟨0, "main", [], .named "N", .mk 13 ⟨9, 10⟩ (.block [
    .mk 2 ⟨11, 12⟩ (.declList [.mk 1 ⟨13, 14⟩ (.declare 1 "n" (.named "N") [] (some (.mk 0 ⟨17, 20⟩ (.new node))))]),
    .mk 6 ⟨24, 25⟩ (.declList [.mk 5 ⟨26, 27⟩ (.declare 2 "a" (.array (.named "N")) [] (some
      (.mk 4 ⟨32, 33⟩ (.list (.array (.named "N")) [.mk 3 ⟨34, 35⟩ object]))))]),
    .mk 10 ⟨45, 46⟩ (.store ⟨1, "n", [.field 0], .array (.named "N")⟩ none (.array (.named "N"))
      (.mk 9 ⟨47, 48⟩ (.load ⟨2, "a", [], .array (.named "N")⟩))),
    .mk 12 ⟨50, 56⟩ (.ret (some (.mk 11 ⟨57, 58⟩ object)))]), false, ⟨2, 6⟩⟩

def program : Program := ⟨"cyclic", [main], [], 14, environment⟩

def ticked : TickResult := (program.withSteps 100).tick (.begin "cyclic" 0 main []) .empty

theorem rendering_ends_cyclic : ofSource "cyclic" environment source = .ok program ∧
    (∀ f ∈ program.env.natives.natives, f.KeepsTypes program.class?) ∧ program.Runs ticked.execution ticked.session ∧
    ∃ v o, ticked.tick = .finished v ∧ ticked.session.heap.Rendered v o ∧ o.text = "N(all=\x7bN(..)\x7d)" := by
  have compiled : ofSource "cyclic" environment source = .ok program := ofSource_eq 20 (by decide +kernel) rfl
  have natives : ∀ f ∈ program.env.natives.natives, f.KeepsTypes program.class? :=
    fun _ hf => absurd hf List.not_mem_nil
  have accepts : program.Accepts main [] .empty := ⟨⟨_, fun _ => none⟩, rfl, ⟨nofun, nofun⟩, .nil⟩
  have runs : program.Runs ticked.execution ticked.session := .tick 100 (.start ⟨0, main, [], rfl, accepts, rfl⟩)
  let v : Variable := Slot.temp (.named "N") (.object "N" 0)
  have last : ticked.tick = .finished v ∧ v ∈ ticked.execution.slots ∧
      ticked.session.heap.text? v = some "N(all=\x7bN(..)\x7d)" := by decide +kernel
  obtain ⟨finished, slot, text⟩ := last
  obtain ⟨o, rendered⟩ := (rendering_ends compiled natives runs).1 v slot v (.self v)
  exact ⟨compiled, natives, runs, v, o, finished, rendered, Option.some.inj (rendered.text.symm.trans text)⟩

end Cyclic

/-!
A program that hands its array of arrays to a native, which answers it as one of their type, and then makes it an
element of itself.
-/
namespace Circular

def source : String := "float[] main() { float a[][]; float b[] = same(a); a[0] = b; return b; }"

def main : Function :=
  let row : Place Instr :=
    ⟨1, "a", [.index (.mk 7 ⟨53, 54⟩ (.literal (Slot.ofInt 0))) (.array .float)], .array .float⟩
  let shared : Form Instr := .load ⟨2, "b", [], .array .float⟩
  ⟨0, "main", [], .array .float, .mk 13 ⟨15, 16⟩ (.block [
    .mk 1 ⟨17, 22⟩ (.declList [.mk 0 ⟨23, 24⟩ (.declare 1 "a" (.array (.array .float)) [] none)]),
    .mk 5 ⟨30, 35⟩ (.declList [.mk 4 ⟨36, 37⟩ (.declare 2 "b" (.array .float) [] (some
      (.mk 3 ⟨42, 46⟩ (.call (.native 0) [.mk 2 ⟨47, 48⟩ (.load ⟨1, "a", [], .array (.array .float)⟩)]
        (.array .float)))))]),
    .mk 10 ⟨56, 57⟩ (.store row none (.array .float) (.mk 9 ⟨58, 59⟩ shared)),
    .mk 12 ⟨61, 67⟩ (.ret (some (.mk 11 ⟨68, 69⟩ shared)))]), false, ⟨8, 12⟩⟩

def program : Program := ⟨"circular", [main], [], 14, Sharing.environment Sharing.share⟩

def begun : Execution Variable := .begin "circular" 0 main []

def ticked : TickResult := (program.withSteps 100).tick begun .empty

/-- It is not enough that each value that a native answers is one that its result type admits then: an array may come
to hold itself, and then following its elements never ends. -/
theorem rendering_does_not_end_circular :
    ofSource "circular" (Sharing.environment Sharing.share) source = .ok program ∧
    (∀ f ∈ program.env.natives.natives, ∀ c v, (f.handler c).outcome = .done v →
      (f.handler c).heap.Admits program.class? f.ret v.value) ∧
    program.startFunction? 0 [] .empty = some begun ∧
    ∃ v, ticked.tick = .finished v ∧ ∀ fuel insideObject, ticked.session.heap.render fuel insideObject v = none := by
  have compiled : ofSource "circular" (Sharing.environment Sharing.share) source = .ok program :=
    ofSource_eq 20 (by decide +kernel) rfl
  have natives : ∀ f ∈ program.env.natives.natives, ∀ c v, (f.handler c).outcome = .done v →
      (f.handler c).heap.Admits program.class? f.ret v.value := by
    intro f hf c v done
    cases List.mem_singleton.1 hf
    exact Sharing.share_admits _ c done
  let v : Variable := Slot.temp (.array .float) (.array 0)
  have last : ticked.tick = .finished v ∧ v ∈ ticked.session.heap.elements 0 := by decide +kernel
  exact ⟨compiled, natives, rfl, v, last.1, Heap.render_eq_none last.2 rfl rfl⟩

end Circular
end Program
end Tickwise
