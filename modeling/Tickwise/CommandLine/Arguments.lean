import Tickwise.Environment
set_option autoImplicit false

/-!
# Arguments

Reads the arguments of the command line. An option starts with two dashes and has a value, after `=`
in the same word or in the next word; it is given once at most. After a word of two dashes all words
are files.
-/
namespace Tickwise

structure RunLimits where
  steps : Nat
  maxTicks : Nat
  maxDepth : Nat
  deriving DecidableEq, Inhabited

def RunLimits.standard : RunLimits :=
  ⟨Limits.standard.stepsPerTick, 10000, Limits.standard.maxFrames⟩

structure RunOptions where
  /-- The function to run; if none is named, the first that is `extern`. -/
  entry : Option String
  limits : RunLimits
  save : Option String
  deriving DecidableEq, Inhabited

inductive Command where
  | run (file : String) (options : RunOptions)
  | resume (file state : String) (options : RunOptions)
  | check (file : String)
  deriving DecidableEq, Inhabited

inductive Topic where
  | program
  | run
  | resume
  | check
  | help
  deriving DecidableEq, Inhabited

inductive Request where
  | perform (command : Command)
  | explain (topic : Topic)
  deriving DecidableEq, Inhabited

inductive OptionName where
  | entry
  | steps
  | maxTicks
  | maxDepth
  | save
  deriving DecidableEq, Inhabited

namespace OptionName

def text : OptionName → String
  | entry => "--entry"
  | steps => "--steps"
  | maxTicks => "--max-ticks"
  | maxDepth => "--max-depth"
  | save => "--save"

/-- The number in a value, with an optional sign. Only the number of steps may be a negative zero. -/
def number? (option : OptionName) (value : String) : Option Nat :=
  let limit := if option = .steps then 0x100000000 else 0x10000000000000000
  if option ≠ .steps ∧ "-".isPrefixOf value then none
  else (Integer.signed? limit value.toList).bind Int.toNat?

def set? (option : OptionName) (value : String) (o : RunOptions) : Option RunOptions :=
  match option with
  | entry => some { o with entry := some value }
  | steps => (option.number? value).map fun n => { o with limits := { o.limits with steps := n } }
  | maxTicks => (option.number? value).map fun n => { o with limits := { o.limits with maxTicks := n } }
  | maxDepth => (option.number? value).map fun n => { o with limits := { o.limits with maxDepth := n } }
  | save => if value = "" then none else some { o with save := some value }

end OptionName

structure CommandShape where
  files : Nat
  options : List OptionName

def CommandShape.run : CommandShape := ⟨1, [.entry, .steps, .maxTicks, .maxDepth, .save]⟩

def CommandShape.resume : CommandShape := ⟨2, [.steps, .maxTicks, .maxDepth, .save]⟩

def CommandShape.check : CommandShape := ⟨1, []⟩

/-- Why reading stops before the last word. -/
inductive Stop where
  | refused
  | help
  deriving DecidableEq, Inhabited

/-- The files and options read so far, with the names of the options. -/
structure Given where
  files : List String
  options : RunOptions
  names : List OptionName

namespace Given

def initial : Given := ⟨[], ⟨none, .standard, none⟩, []⟩

def addFile (shape : CommandShape) (g : Given) (file : String) : Except Stop Given :=
  if file = "" ∨ g.files.length ≥ shape.files then .error .refused
  else .ok { g with files := g.files ++ [file] }

def addOption (shape : CommandShape) (g : Given) (name value : String) : Except Stop Given :=
  match shape.options.find? (·.text = name) with
  | none => .error .refused
  | some option =>
    if option ∈ g.names then .error .refused
    else match option.set? value g.options with
      | none => .error .refused
      | some options => .ok { g with options := options, names := option :: g.names }

end Given

/-- A word that starts with a dash, other than a dash alone, is not a file or the value of an option. -/
def isOptionWord (word : String) : Bool := "-".isPrefixOf word ∧ word ≠ "-"

def isHelpWord (word : String) : Bool := word = "--help" ∨ "-h".isPrefixOf word

def cutWord (word : String) : String × Option String :=
  match word.toList.span (· ≠ '=') with
  | (name, _ :: value) => (String.ofList name, some (String.ofList value))
  | (_, []) => (word, none)

/-- Reads the words after the name of a command. -/
def Given.read (shape : CommandShape) : List String → Given → Except Stop Given
  | [], g => .ok g
  | word :: rest, g =>
    if word = "--" then rest.foldlM (Given.addFile shape) g
    else if isHelpWord word then .error .help
    else if ¬ isOptionWord word then (g.addFile shape word).bind (read shape rest)
    else
      match cutWord word, rest with
      | (name, some value), rest => (g.addOption shape name value).bind (read shape rest)
      | (name, none), value :: rest =>
        if isOptionWord value then .error .refused
        else (g.addOption shape name value).bind (read shape rest)
      | (_, none), [] => .error .refused

namespace Request

def ofWords? (shape : CommandShape) (topic : Topic) (words : List String)
    (command? : List String → RunOptions → Option Command) : Option Request :=
  match Given.initial.read shape words with
  | .ok g => (command? g.files g.options).map perform
  | .error .help => some (explain topic)
  | .error .refused => none

def ofArgs? : List String → Option Request
  | [] => none
  | "run" :: words => ofWords? .run .run words fun
    | [file], options => some (.run file options)
    | _, _ => none
  | "resume" :: words => ofWords? .resume .resume words fun
    | [file, state], options => some (.resume file state options)
    | _, _ => none
  | "check" :: words => ofWords? .check .check words fun
    | [file], _ => some (.check file)
    | _, _ => none
  | ["help"] => some (explain .program)
  | ["help", "run"] => some (explain .run)
  | ["help", "resume"] => some (explain .resume)
  | ["help", "check"] => some (explain .check)
  | ["help", "help"] => some (explain .help)
  | word :: _ => if isHelpWord word then some (explain .program) else none

end Request
end Tickwise
