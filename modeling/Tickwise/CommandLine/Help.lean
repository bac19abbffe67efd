import Tickwise.CommandLine.Arguments
set_option autoImplicit false

/-!
# Help

What the command line says about itself, under the name by which the program was called.
-/
namespace Tickwise.Topic

/-- A heading and the entries under it, with the words about them in one column. -/
def list (heading : String) (entries : List (String × String)) : List String :=
  let width := entries.foldl (fun n entry => max n entry.1.length) 0
  let line (entry : String × String) : String :=
    let blanks := String.ofList (List.replicate (width - entry.1.length) ' ')
    "  " ++ entry.1 ++ blanks ++ "  " ++ entry.2
  "" :: heading :: entries.map line

def about (program : String) : Topic → String
  | .program => "Compile and run " ++ program ++ " scripts tick by tick"
  | run => "Compile a script and run one of its functions"
  | resume => "Continue a runtime stack persisted by \x60run --save\x60"
  | check => "Compile a script and report every function's first error"
  | help => "Print this message or the help of the given subcommand(s)"

def usage : Topic → String
  | program => "<COMMAND>"
  | run => "run [OPTIONS] <FILE>"
  | resume => "resume [OPTIONS] <FILE> <STATE>"
  | check => "check <FILE>"
  | help => "help [COMMAND]..."

def optionEntry (option : OptionName) : String × String :=
  let initial (n : Nat) : String := " [default: " ++ toString n ++ "]"
  let (value, words) := match option with
    | .entry => ("ENTRY", "The function to run; defaults to the first \x60extern\x60 function")
    | .steps =>
      ("STEPS", "Statements and loop iterations executed per tick" ++ initial RunLimits.standard.steps)
    | .maxTicks => ("MAX_TICKS", "Give up after this many ticks" ++ initial RunLimits.standard.maxTicks)
    | .maxDepth =>
      ("MAX_DEPTH", "Maximum depth of the runtime stack" ++ initial RunLimits.standard.maxDepth)
    | .save =>
      ("SAVE", "Persist the runtime stack here if the program is still running after the last tick")
  ("    " ++ option.text ++ " <" ++ value ++ ">", words)

def options (shape : CommandShape) : List String :=
  list "Options:" (shape.options.map optionEntry ++ [("-h, --help", "Print help")])

def details (program : String) : Topic → List String
  | .program =>
    list "Commands:"
        [("run", about program run), ("resume", about program resume), ("check", about program check),
          ("help", about program help)] ++
      options ⟨0, []⟩
  | run => list "Arguments:" [("<FILE>", "Path to the script")] ++ options .run
  | resume =>
    list "Arguments:"
        [("<FILE>", "Path to the script the state was saved from"),
          ("<STATE>", "Path to the persisted state")] ++
      options .resume
  | check => list "Arguments:" [("<FILE>", "Path to the script")] ++ options .check
  | help => list "Arguments:" [("[COMMAND]...", "Print help for the subcommand(s)")]

def lines (program : String) (topic : Topic) : List String :=
  about program topic :: "" :: ("Usage: " ++ program ++ " " ++ topic.usage) :: details program topic

end Tickwise.Topic
