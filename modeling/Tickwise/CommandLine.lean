import Tickwise.CommandLine.Help
import Tickwise.Compile.Unit
import Tickwise.Console
import Tickwise.Execution.Saved
import Tickwise.Execution.Tick
set_option autoImplicit false

/-!
# The command line

Commands that run a script tick by tick, continue one that was saved, and report the errors of a
script. They reach files and the screen through a `Console`.
-/
namespace Tickwise

namespace Command

/-- The name by which saved state knows a script: the last part of its path, without the extension. -/
def programId (path : String) : String :=
  let name := path.toList.reverse.dropWhile (· = '/') |>.takeWhile (· ≠ '/')
  if name = ['.', '.'] ∨ name = [] then "script"
  else
    let stem := (name.dropWhile (· ≠ '.')).drop 1
    String.ofList (if stem = [] then name else stem).reverse

section Console

variable {m : Type → Type} [Monad m]

abbrev ExitCode := UInt32

def crashCode : Crash → ExitCode
  | .panic => 101
  | .overflow => 134

def located (source : String) (offset : UInt32) (message : String) : String :=
  let (line, column) := lineColumn source offset.toNat
  toString line ++ ":" ++ toString column ++ ": " ++ message

def readBytes? (c : Console m) (file : String) : m (Option (List UInt8)) := do
  match ← c.fetch file with
  | .ok bytes => return some bytes
  | .error e =>
    c.log .error ("Failed to read '" ++ file ++ "': " ++ e)
    return none

def readSource? (c : Console m) (file : String) : m (Option String) := do
  match ← readBytes? c file with
  | none => return none
  | some bytes =>
    match String.fromUTF8? ⟨bytes.toArray⟩ with
    | some source => return some source
    | none =>
      c.log .error ("Failed to read '" ++ file ++ "': stream did not contain valid UTF-8")
      return none

def logCompileError (c : Console m) (file source : String) (e : CompileError) : m Unit :=
  c.log .error (file ++ ":" ++ located source e.span.start e.message)

structure Script where
  source : String
  program : Program

def readScript? (c : Console m) (file : String) (limits : RunLimits) : m (Option Script) := do
  match ← readSource? c file with
  | none => return none
  | some source =>
    let env := Environment.withLibrary .printed
    let env := { env with limits := (env.limits.withSteps limits.steps).withMaxFrames limits.maxDepth }
    match Program.ofSource (programId file) env source with
    | .ok program => return some ⟨source, program⟩
    | .error e =>
      logCompileError c file source e
      return none

def printReports (c : Console m) (p : Program) (r : TickResult) : m Unit := do
  for w in r.warnings do c.print (Severity.warn.text ++ " " ++ w.message p.id)
  for report in r.session.journal.reports.reverse do
    match report with
    | .printed line => c.print line
    | _ => pure ()

def saveState (c : Console m) (x : Execution Variable) (h : Heap) (ticks : Nat) (file : String) :
    m ExitCode := do
  let saved ← match (x.save h).toExcept with
    | .ok bytes => c.store file bytes
    | .error e => pure (.error e.message)
  match saved with
  | .ok () =>
    c.log .info ("Still running after " ++ toString ticks ++ " ticks; state saved to '" ++ file ++ "'")
    return 0
  | .error e =>
    c.log .error ("Failed to save state to '" ++ file ++ "': " ++ e)
    return 1

/-- Ticks a script to its end, for at most `ticksLeft` more ticks after the first `tick`. -/
def drive (c : Console m) (script : Script) (save : Option String) :
    (ticksLeft tick : Nat) → Execution Variable → Session → m ExitCode
  | 0, tick, x, s =>
    match save with
    | some file => saveState c x s.heap tick file
    | none => do
      c.log .warn ("Still running after " ++ toString tick ++ " ticks")
      return 2
  | ticksLeft + 1, tick, x, s => do
    let tick := tick + 1
    let r := script.program.tick x s
    if let some crash := r.crash then return crashCode crash
    printReports c script.program r
    match r.tick with
    | .suspended =>
      let journal := { r.session.journal with reports := [] }
      drive c script save ticksLeft tick r.execution { r.session with journal := journal }
    | .finished value =>
      match r.session.heap.text? value with
      | some text =>
        c.log .info ("Finished after " ++ toString tick ++ " ticks: " ++ text)
        return 0
      | none => return crashCode .overflow
    | .faulted e =>
      let message := e.fault.message ++ " (code " ++ toString e.fault.code ++ ")"
      c.log .error (located script.source e.span.start message)
      return 1

def runScript (c : Console m) (file : String) (options : RunOptions) : m ExitCode := do
  match ← readScript? c file options.limits with
  | none => return 1
  | some script =>
    match options.entry.or (script.program.entryPoints.head?.map Function.name) with
    | none =>
      c.log .error ("'" ++ file ++ "' has no extern function; name one with --entry")
      return 1
    | some entry =>
      match script.program.start? entry [] .empty, script.program.findFunction? entry with
      | some x, _ => drive c script options.save options.limits.maxTicks 0 x .empty
      | none, some f =>
        let params := String.intercalate ", " (f.params.map (·.ty.text))
        c.log .error ("Function '" ++ entry ++ "' takes arguments (" ++ params ++
          "); entry points must take none")
        return 1
      | none, none =>
        c.log .error ("No function named '" ++ entry ++ "'")
        return 1

def resumeScript (c : Console m) (file state : String) (options : RunOptions) : m ExitCode := do
  match ← readScript? c file options.limits with
  | none => return 1
  | some script =>
    match ← readBytes? c state with
    | none => return 1
    | some bytes =>
      match script.program.load bytes .empty with
      | .error e =>
        c.log .error ("Failed to load '" ++ state ++ "': " ++ e.message)
        return 1
      | .ok (x, heap) =>
        match script.program.restore x with
        | (some e, _) =>
          c.log .error ("'" ++ state ++ "' does not match '" ++ file ++ "': " ++ e.message)
          return 1
        | (none, x) =>
          drive c script options.save options.limits.maxTicks 0 x { Session.empty with heap := heap }

def checkScript (c : Console m) (file : String) : m ExitCode := do
  match ← readSource? c file with
  | none => return 1
  | some source =>
    let errors := Program.diagnose (Environment.withLibrary .logged) source
    for e in errors do logCompileError c file source e
    if errors.isEmpty then
      c.log .info "No errors found."
      return 0
    else return 1

def perform (c : Console m) : Command → m ExitCode
  | run file options => runScript c file options
  | resume file state options => resumeScript c file state options
  | check file => checkScript c file

end Console
end Command

/-- Does what arguments ask for; `program` is the name by which the program was called. -/
def Console.execute {m : Type → Type} [Monad m] (c : Console m) (program : String)
    (args : List String) : m Command.ExitCode := do
  match Request.ofArgs? args with
  | some (.perform command) => command.perform c
  | some (.explain topic) =>
    for line in topic.lines program do c.print line
    return 0
  | none => return 2

end Tickwise
