import Tickwise.Native.Library
set_option autoImplicit false

/-!
# Environments

What a host offers to the programs that it runs: natives, classes, named integer constants and
limits on execution.
-/
namespace Tickwise

structure Limits where
  /-- Frames at this depth or beyond overflow the stack. -/
  maxFrames : Nat
  /-- How many statements and loop turns one tick may pass. -/
  stepsPerTick : Nat
  deriving DecidableEq, Inhabited

namespace Limits

def standard : Limits := ⟨200, 100⟩

/-- A tick takes at least one step, so that it gets on. -/
def withSteps (l : Limits) (steps : Nat) : Limits := { l with stepsPerTick := max steps 1 }

def withMaxFrames (l : Limits) (depth : Nat) : Limits := { l with maxFrames := depth }

end Limits

structure Environment where
  natives : NativeRegistry
  classes : List ClassLayout
  constants : List (String × Int32)
  limits : Limits

namespace Environment

def empty : Environment := ⟨.empty, [], [], .standard⟩

def withLibrary (report : String → Report) : Environment :=
  { empty with natives := ⟨Library.natives report⟩ }

def findClass? (e : Environment) (name : String) : Option ClassLayout :=
  e.classes.find? (·.name = name)

def constant? (e : Environment) (name : String) : Option Int32 := e.constants.lookup name

def defineClass? (e : Environment) (c : ClassLayout) : Option Environment :=
  if (e.findClass? c.name).isSome then none else some { e with classes := e.classes ++ [c] }

/-- Binds a name to an integer unless it is bound. -/
def defineConstant? (e : Environment) (name : String) (value : Int32) : Option Environment :=
  if (e.constant? name).isSome then none
  else some { e with constants := e.constants ++ [(name, value)] }

def registerNative? (e : Environment) (f : NativeFn) : Option Environment :=
  (e.natives.register? f).map fun natives => { e with natives := natives }

end Environment
end Tickwise
