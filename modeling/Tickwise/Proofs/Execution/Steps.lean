import Tickwise.Proofs.Compile.Comparison
import Tickwise.Proofs.Execution.Paths
import Tickwise.Proofs.Typing.Loading
import Tickwise.Proofs.Typing.Soundness
set_option autoImplicit false

/-!
# The steps of a tick

Each tick of an execution that a host can come to ends within its budget of steps. It returns where natives return and
keep to their types; otherwise the process may die in it.
-/
namespace Tickwise

open Exec

namespace Program

/-- What a tick results in, with no bound on the turns of the instructions that it executes. -/
def Ticks (p : Program) (x : Execution Variable) (s : Session) (r : TickResult) : Prop :=
  match p.prepare x s with
  | .inl result => r = result
  | .inr (f, y) => ∃ o m, Executes p p.env.limits.maxFrames f.body (p.machine y s) (o, m) ∧
      r = { conclude f y o m with steps := m.taken, crash := crash? f o m.heap }

/-- The innermost frame is that of a call whose native asked to be invoked again. -/
def PendingNative (p : Program) (x : Execution Variable) : Prop :=
  ∃ f j g, p.function? x.entry = some f ∧ InFlight p f.body x.frames j g ∧ j.PendingNative g

variable {p : Program} {x : Execution Variable} {s : Session}

theorem Ready.resumable {f : Function} (h : p.Ready f x) : p.Resumable x := by
  intro g hg
  cases h.entry.symm.trans hg
  exact .inl h.fits

theorem Reaches.resumable (h : p.Reaches (fun x => p.Starts x ∨ p.Loads x) x) :
    x.status.isOver = true ∨ p.Resumable x := by
  induction h with
  | origin h =>
    right
    intro f hf
    rcases h with starts | loads
    · obtain ⟨g, found, fits, _⟩ := starts.fits
      cases found.symm.trans hf
      exact .inl fits
    · exact .inr loads.dead
  | @tick x e s _ ih =>
    rcases ih with done | resumable
    · exact .inl (over_tick done ..)
    · rcases resumable.tick e s with done | ⟨f, j, g, found, inFlight, _⟩
      · exact .inl done
      · right
        intro f' hf
        cases found.symm.trans hf
        exact .inl inFlight.fits
  | stop _ ih => exact ih
  | @restored x y _ accepted ih =>
    obtain ⟨entry, status, _⟩ := p.entry_restore accepted
    rcases ih with done | resumable
    · exact .inl (by rw [status]; exact done)
    · right
      intro f hf
      rw [entry] at hf
      rcases resumable f hf with fits | dead
      · rw [p.restore_of_live (live_of_fits fits) accepted]
        exact .inl fits
      · exact .inl (p.fits_restore hf dead accepted)

theorem ticks_iff {r : TickResult} : p.Ticks x s r ↔ r = p.tick x s := by
  unfold Ticks
  cases hp : p.prepare x s with
  | inl result =>
    unfold tick
    rw [hp]
  | inr fy =>
    obtain ⟨f, y⟩ := fy
    constructor
    · rintro ⟨o, m, run, rfl⟩
      exact (tick_of_prepare hp run).symm
    · rintro rfl
      have run := executes_exec p p.env.limits.maxFrames f.body (p.machine y s)
      exact ⟨_, _, run, tick_of_prepare hp run⟩

theorem steps_le (p : Program) (x : Execution Variable) (s : Session) :
    (p.tick x s).steps ≤ max 1 p.env.limits.stepsPerTick := by
  cases hp : p.prepare x s with
  | inl result =>
    unfold tick
    rw [hp]
    dsimp only
    rw [(prepare_left hp).2.2]
    exact Nat.zero_le _
  | inr fy =>
    obtain ⟨f, y⟩ := fy
    have run := executes_exec p p.env.limits.maxFrames f.body (p.machine y s)
    rw [tick_of_prepare hp run]
    have steps := run.around.steps
    change _ + _ = 0 + max p.env.limits.stepsPerTick 1 at steps
    dsimp only
    omega

theorem steps_of_suspended (h : x.status.isOver = true ∨ p.Resumable x) (suspended : (p.tick x s).tick = .suspended)
    (unpending : ¬ p.PendingNative (p.tick x s).execution) :
    (p.tick x s).steps = max p.env.limits.stepsPerTick 1 := by
  rcases p.tick_cases x s with ⟨final, _⟩ | ⟨f, y, m, prepared, run, tick⟩
  · rw [suspended] at final
    cases final
  · rcases h with done | resumable
    · rw [(prepare_right prepared).2.1] at done
      cases done
    · obtain ⟨found, _, entry, _⟩ := resumable.prepare prepared
      obtain ⟨⟨j, g, inFlight, reason⟩, _⟩ := resumable.suspends prepared run
      rw [tick] at unpending ⊢
      rcases reason with taken | pending
      · exact taken
      · exact absurd ⟨f, j, g, by rw [entry]; exact found, inFlight, pending⟩ unpending

theorem takes_budget (h : x.status.isOver = true ∨ p.Resumable x) {budget : Nat}
    (suspended : ((p.withSteps budget).tick x s).tick = .suspended)
    (unpending : ¬ p.PendingNative ((p.withSteps budget).tick x s).execution) :
    ((p.withSteps budget).tick x s).steps = max 1 budget := by
  have resumable : x.status.isOver = true ∨ (p.withSteps budget).Resumable x :=
    h.imp_right fun resumable f hf => (resumable f hf).imp_left (fits_inEnvironment ..).2
  have steps := steps_of_suspended resumable suspended fun ⟨f, j, g, found, inFlight, pending⟩ =>
    unpending ⟨f, j, g, found, inFlight.of_inEnvironment, pending⟩
  have limit : (p.withSteps budget).env.limits.stepsPerTick = max budget 1 := rfl
  omega

/-- Each tick of an execution that a host can come to ends in one way, and takes no more steps than its budget. If the
execution is suspended and no native is pending it takes just as many. Where the program was compiled and started with
arguments of the types of its parameters, and its natives return and keep to their types, the tick does not crash. -/
theorem tick_within_budget (s : Session)
    (h : p.Reaches (fun x => p.Starts x ∨ p.Loads x) x ∨ p.Travels (fun x _ => p.Starts x) x s) (budget : Nat) :
    (∀ r, (p.withSteps budget).Ticks x s r ↔ r = (p.withSteps budget).tick x s) ∧
      ((p.withSteps budget).tick x s).steps ≤ max 1 budget ∧
      (((p.withSteps budget).tick x s).tick = .suspended →
        ¬ p.PendingNative ((p.withSteps budget).tick x s).execution →
        ((p.withSteps budget).tick x s).steps = max 1 budget) ∧
      ∀ {id source env}, ofSource id env source = .ok p →
        (∀ f ∈ p.env.natives.natives, f.KeepsTypes p.class? ∧ f.Returns p.class?) → p.Travels p.Begins x s →
        ((p.withSteps budget).tick x s).crash = none := by
  have limit : (p.withSteps budget).env.limits.stepsPerTick = max budget 1 := rfl
  have most := steps_le (p.withSteps budget) x s
  refine ⟨fun r => ticks_iff, by omega, fun suspended unpending => ?_, fun compiled natives travels =>
    travels.crash_eq_none compiled natives budget⟩
  rcases h with reaches | travels
  · exact takes_budget reaches.resumable suspended unpending
  · rcases travels.ready with done | ⟨f, ready⟩
    · exact takes_budget (.inl done) suspended unpending
    · rcases (p.withSteps budget).tick_eq_or_refused x s ready.running ready.entry ready.program with
        same | ⟨error, y, _, tick⟩
      · rw [same] at suspended unpending ⊢
        exact takes_budget (.inr ready.resumable) suspended unpending
      · rw [tick] at suspended
        cases suspended

/-!
A program that prints an array again and again. It is saved after a tick, and what is loaded is restored.
-/
namespace Printing

def environment : Environment := .withLibrary .printed

def source : String := "int main() { int a[] = { 1 }; while (true) { print(a); } return 0; }"

def number (id : NodeId) (span : Span) (n : Int32) : Instr := .mk id span (.literal (Slot.ofInt n))

def printing : Instr := .mk 6 ⟨45, 50⟩ (.call (.native 14) [.mk 5 ⟨51, 52⟩ (.load ⟨1, "a", [], .array .int⟩)] .void)

def body : Instr :=
  .mk 11 ⟨11, 12⟩ (.block [
    .mk 3 ⟨13, 16⟩ (.declList [.mk 2 ⟨17, 18⟩ (.declare 1 "a" (.array .int) [] (some
      (.mk 1 ⟨23, 24⟩ (.list (.array .int) [number 0 ⟨25, 26⟩ 1]))))]),
    .mk 8 ⟨30, 35⟩ (.whileLoop none (.mk 4 ⟨37, 41⟩ (.literal (Slot.ofBool true)))
      (.mk 7 ⟨43, 44⟩ (.block [printing]))),
    .mk 10 ⟨57, 63⟩ (.ret (some (number 9 ⟨64, 65⟩ 0)))])

def main : Function := ⟨0, "main", [], .int, body, false, ⟨4, 8⟩⟩

def program : Program := ⟨"printing", [main], [], 12, environment⟩

def begun : Execution Variable := .begin "printing" 0 main []

def ticked : TickResult := (program.withSteps 2).tick begun .empty

theorem compiled : ofSource "printing" environment source = .ok program :=
  ofSource_eq 20 (by decide +kernel) rfl

theorem tick_within_budget_printing : ∃ x s, program.Reaches (fun x => program.Starts x ∨ program.Loads x) x ∧
    program.Travels program.Begins x s ∧ ((program.withSteps 3).tick x s).tick = .suspended ∧
    ((program.withSteps 3).tick x s).steps = 3 ∧ ((program.withSteps 3).tick x s).crash = none := by
  have natives : ∀ f ∈ program.env.natives.natives, f.KeepsTypes program.class? ∧ f.Returns program.class? :=
    fun f hf => by
      have plain := Library.natives_plain .printed f hf
      exact ⟨plain.keepsTypes _, plain.returns _⟩
  have accepts : program.Accepts main [] .empty := ⟨⟨_, fun _ => none⟩, rfl, ⟨nofun, nofun⟩, .nil⟩
  have start : program.Travels program.Begins begun .empty := .origin ⟨0, main, [], rfl, accepts, rfl⟩
  have first : program.Travels program.Begins ticked.execution ticked.session := start.tick 2
  obtain ⟨bytes, save, loads⟩ : ∃ bytes, (ticked.execution.save ticked.session.heap).toExcept = .ok bytes ∧
      (program.load bytes .empty).toOption.any (fun r =>
        let again := (program.withSteps 3).tick (program.restore r.1).2 ⟨r.2, .empty⟩
        (program.restore r.1).1 = none ∧ again.tick = .suspended ∧
          again.execution.frames.getLast?.map Frame.state = some 0) = true :=
    ok_of_any (by decide +kernel)
  obtain ⟨⟨y, k⟩, load, last⟩ := ok_of_any loads
  obtain ⟨accepted, suspended, innermost⟩ := of_decide_eq_true last
  have reaches : program.Reaches (fun x => program.Starts x ∨ program.Loads x) (program.restore y).2 :=
    .restored (.origin (.inr ⟨bytes, _, k, load⟩)) (Prod.ext accepted rfl)
  have reloaded : program.Travels program.Begins y { Session.empty with heap := k } := .reload first save load
  obtain ⟨_, _, steps, returns⟩ := tick_within_budget ⟨k, .empty⟩ (.inl reaches) 3
  refine ⟨_, _, reaches, reloaded.restore, suspended, steps suspended ?_, returns compiled natives reloaded.restore⟩
  rintro ⟨f, j, g, _, inFlight, state, _⟩
  rw [inFlight.getLast?, Option.map_some, state] at innermost
  cases innermost

end Printing

/-!
Two programs whose natives return, but do not keep to their types. The one native answers an object without the fields
of its class; the other answers an array as one of another type, and the program puts the array into itself.
-/
namespace Mistyped

def hollow : Environment :=
  let make (c : NativeCall) : NativeReply :=
    let (r, h) := c.heap.alloc #[]
    ⟨.done (Slot.temp (.named "N") (.object "N" r)), c.state, h, []⟩
  { Environment.empty with
    natives := ⟨[⟨"make", [], .named "N", make⟩]⟩
    classes := [⟨"N", [⟨"x", .int⟩]⟩] }

def reading : String := "int main() { N n = make(); return n.x; }"

def joining : String :=
  "string main() \x7b float a[][]; float b[] = same(a); a[0] = b; return \"\" + b; \x7d"

def crash? (p : Program) : Option Crash := (p.start? "main" [] .empty).bind fun x => (p.tick x .empty).crash

/-- Reading a field that is not there kills the process, and so does writing out what never ends. -/
theorem tick_crashes_mistyped :
    (∃ p, ofSource "reading" hollow reading = .ok p ∧
      (∀ f ∈ hollow.natives.natives, ∀ c crash, (f.handler c).outcome ≠ .crashed crash) ∧
      ∃ x, p.start? "main" [] .empty = some x ∧ (p.tick x .empty).crash = some .panic) ∧
    ∃ p, ofSource "joining" (Sharing.environment Sharing.share) joining = .ok p ∧
      (∀ f ∈ (Sharing.environment Sharing.share).natives.natives, ∀ c crash, (f.handler c).outcome ≠ .crashed crash) ∧
      ∃ x, p.start? "main" [] .empty = some x ∧ (p.tick x .empty).crash = some .overflow := by
  have returns (env : Environment) (f : NativeFn) (only : env.natives.natives = [f])
      (done : ∀ c, ∃ v, (f.handler c).outcome = .done v) :
      ∀ g ∈ env.natives.natives, ∀ c crash, (g.handler c).outcome ≠ .crashed crash := by
    intro g hg c crash crashed
    rw [only, List.mem_singleton] at hg
    subst hg
    obtain ⟨v, answered⟩ := done c
    cases answered.symm.trans crashed
  obtain ⟨p, read, panics⟩ : ∃ p, ofSource "reading" hollow reading = .ok p ∧
      decide (crash? p = some .panic) = true := ok_of_any (by decide +kernel)
  obtain ⟨q, join, overflows⟩ : ∃ p, ofSource "joining" (Sharing.environment Sharing.share) joining = .ok p ∧
      decide (crash? p = some .overflow) = true := ok_of_any (by decide +kernel)
  obtain ⟨x, started, panics⟩ := Option.bind_eq_some_iff.1 (of_decide_eq_true panics)
  obtain ⟨y, started', overflows⟩ := Option.bind_eq_some_iff.1 (of_decide_eq_true overflows)
  exact ⟨⟨p, read, returns _ _ rfl fun _ => ⟨_, rfl⟩, x, started, panics⟩,
    q, join, returns _ _ rfl fun _ => ⟨_, rfl⟩, y, started', overflows⟩

end Mistyped

end Program
end Tickwise
