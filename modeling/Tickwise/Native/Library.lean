import Tickwise.Native.Basic
import Tickwise.Text.Search
import Tickwise.Value.Convert
set_option autoImplicit false

/-!
# The standard library

Mathematics, strings, `sizeof`, `print` and `wait`. Strings are measured and cut in characters.
-/
namespace Tickwise.Library

def badArgument : Int32 := 7000

/-- Why a native that finishes at once has no value. -/
inductive Refusal where
  | fault (code : Int32)
  | crash (crash : Crash)

def Refusal.outcome : Refusal → NativeOutcome
  | fault code => .fault code
  | crash c => .crashed c

abbrev Answer := Except Refusal Variable

def NativeCall.arg {α : Type} (c : NativeCall) (i : Nat) (read : Variable → Except Fault α) :
    Except Refusal α :=
  match (c.args[i]?).map read with
  | some (.ok a) => .ok a
  | _ => .error (.fault badArgument)

def intArg (c : NativeCall) (i : Nat) : Except Refusal Int32 := NativeCall.arg c i Slot.toInt

def floatArg (c : NativeCall) (i : Nat) : Except Refusal Binary32 := NativeCall.arg c i Slot.toFloat

def textArg (c : NativeCall) (i : Nat) : Except Refusal String :=
  match (c.args[i]?).bind (c.heap.crash? .string) with
  | some crash => .error (.crash crash)
  | none => NativeCall.arg c i c.heap.toText

def reply (c : NativeCall) (outcome : NativeOutcome) : NativeReply :=
  ⟨outcome, c.state, c.heap, []⟩

def immediate (f : NativeCall → Answer) (c : NativeCall) : NativeReply :=
  match f c with
  | .ok v => reply c (.done v)
  | .error refusal => reply c refusal.outcome

/-- Up to `count` characters from position `start`, both at least 0. -/
def slice (s : String) (start count : Int) : String :=
  ((s.drop start.toNat).take count.toNat).copy

def length (s : String) : Int32 := Int32.ofNat s.length

def left (s : String) (count : Int32) : String := slice s 0 count.toInt

def right (s : String) (count : Int32) : String :=
  let size := s.length
  slice s ((size : Int) - min count.toInt.toNat size) (min count.toInt.toNat size)

def middle (s : String) (start count : Int32) : String := slice s start.toInt count.toInt

def middleToEnd (s : String) (start : Int32) : String := middle s start Int32.maxValue

def find (s needle : String) : Int32 :=
  match Text.indexOf? needle.toList s.toList with
  | some i => Int32.ofNat i
  | none => -1

def absInt (i : Int32) : Int32 := if i < 0 then -i else i

def number (s : String) : Binary32 := (Binary32.ofText? (Text.trim s)).getD Binary32.zero

/-- Suspends for the number of ticks in its argument; the state counts those left. -/
def wait (c : NativeCall) : NativeReply :=
  match c.phase with
  | .start =>
    match intArg c 0 with
    | .ok ticks =>
      if ticks > 0 then { reply c .suspend with state := ticks }
      else reply c (.done Slot.ofVoid)
    | .error refusal => reply c refusal.outcome
  | .resume =>
    let ticksLeft := c.state - 1
    { reply c (if ticksLeft > 0 then .suspend else .done Slot.ofVoid) with state := ticksLeft }
  | .cancel => { reply c (.done Slot.ofVoid) with state := 0 }

def print (report : String → Report) (c : NativeCall) : NativeReply :=
  match textArg c 0 with
  | .ok line => { reply c (.done Slot.ofVoid) with reports := [report line] }
  | .error refusal => reply c refusal.outcome

/-- The number of elements of an array; 0 for what is none. -/
def sizeOf (c : NativeCall) : Answer :=
  match (c.args[0]?).map Slot.toArray with
  | some (.ok r) => .ok (Slot.ofInt (Int32.ofNat (c.heap.elements r).size))
  | _ => .ok (Slot.ofInt 0)

/-- The library; `report` says where the lines of `print` go. -/
def natives (report : String → Report) : List NativeFn :=
  let int := ParamType.exact .int
  let float := ParamType.exact .float
  let string := ParamType.exact .string
  [⟨"abs", [int], .int, immediate fun c => return Slot.ofInt (absInt (← intArg c 0))⟩,
   ⟨"abs", [float], .float, immediate fun c => return Slot.ofFloat (← floatArg c 0).abs⟩,
   ⟨"sqrt", [float], .float, immediate fun c => return Slot.ofFloat (← floatArg c 0).sqrt⟩,
   ⟨"floor", [float], .float, immediate fun c => return Slot.ofFloat (← floatArg c 0).floor⟩,
   ⟨"pow", [float, float], .float, immediate fun c => do
      let x ← floatArg c 0
      let y ← floatArg c 1
      return Slot.ofFloat (x.pow y)⟩,
   ⟨"strlen", [string], .int, immediate fun c => return Slot.ofInt (length (← textArg c 0))⟩,
   ⟨"strleft", [string, int], .string, immediate fun c => do
      let s ← textArg c 0
      return Slot.ofString (left s (← intArg c 1))⟩,
   ⟨"strright", [string, int], .string, immediate fun c => do
      let s ← textArg c 0
      return Slot.ofString (right s (← intArg c 1))⟩,
   ⟨"strmid", [string, int, int], .string, immediate fun c => do
      let s ← textArg c 0
      let start ← intArg c 1
      return Slot.ofString (middle s start (← intArg c 2))⟩,
   ⟨"strmid", [string, int], .string, immediate fun c => do
      let s ← textArg c 0
      return Slot.ofString (middleToEnd s (← intArg c 1))⟩,
   ⟨"strval", [string], .float, immediate fun c => return Slot.ofFloat (number (← textArg c 0))⟩,
   ⟨"strfind", [string, string], .int, immediate fun c => do
      let s ← textArg c 0
      return Slot.ofInt (find s (← textArg c 1))⟩,
   ⟨"sizeof", [.anyArray], .int, immediate sizeOf⟩,
   ⟨"wait", [int], .void, wait⟩,
   ⟨"print", [.any], .void, print report⟩]

end Tickwise.Library
