import Tickwise.Source.Span
set_option autoImplicit false

/-!
# Runtime faults

What ends an execution, with the code that `catch` compares, the wording, and the place in the
source that raised it. A crash ends more than that, the process.
-/
namespace Tickwise

inductive Fault where
  | divisionByZero
  | uninitialized
  | nullReference
  | indexOutOfRange
  | negativeSize
  | stackOverflow
  | missingReturn
  | stopped
  | notRestored
  | arrayTooLarge
  | stringTooLong
  | native (code : Int32)
  | thrown (code : Int32)
  deriving DecidableEq, Inhabited

namespace Fault

def code : Fault → Int32
  | divisionByZero => 6000
  | uninitialized => 6001
  | nullReference => 6002
  | indexOutOfRange => 6003
  | negativeSize => 6004
  | stackOverflow => 6005
  | missingReturn => 6006
  | stopped => 6007
  | notRestored => 6008
  | arrayTooLarge => 6009
  | stringTooLong => 6010
  | native c => c
  | thrown c => c

/-- The fault with a code; a code that no fault reserves counts as thrown. -/
def ofCode (c : Int32) : Fault :=
  let reserved := [divisionByZero, uninitialized, nullReference, indexOutOfRange, negativeSize,
    stackOverflow, missingReturn, stopped, notRestored, arrayTooLarge, stringTooLong]
  (reserved.find? (·.code = c)).getD (thrown c)

def message : Fault → String
  | divisionByZero => "division by zero"
  | uninitialized => "variable used before initialization"
  | nullReference => "null reference"
  | indexOutOfRange => "index out of range"
  | negativeSize => "negative array size"
  | stackOverflow => "stack overflow"
  | missingReturn => "function ended without returning a value"
  | stopped => "program stopped by host"
  | notRestored => "runtime stack has not been restored"
  | arrayTooLarge => "array is too large"
  | stringTooLong => "string is too long"
  | native c => "native function failed with code " ++ toString c
  | thrown c => "exception " ++ toString c ++ " thrown"

end Fault

structure RuntimeError where
  fault : Fault
  span : Span
  deriving DecidableEq, Inhabited

def RuntimeError.message (e : RuntimeError) : String := e.fault.message ++ " at " ++ e.span.text

/-- Why the process dies while it executes a program. -/
inductive Crash where
  /-- An access beyond storage, or to storage that is being written. -/
  | panic
  /-- A recursion that does not end. -/
  | overflow
  deriving DecidableEq, Inhabited

end Tickwise
