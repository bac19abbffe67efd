import Tickwise.Limit
set_option autoImplicit false

/-!
# Bytes

Writers and readers of numbers, truth values, strings and lengths, all little-endian. A writer that
fails keeps what it wrote before; a reader answers what is left of its input.
-/
namespace Tickwise.Codec

/-- What saved state can be wrong about. -/
inductive Malformation where
  | numberOutOfRange
  | notABool
  | stringTooLong
  | notUtf8
  | tooManyEntries
  | nestedTooDeep
  | valueMismatch
  | savedWhileRunning
  | invertedRange
  | tooManyFrames
  | unknownNode
  deriving DecidableEq, Inhabited

def Malformation.message : Malformation → String
  | numberOutOfRange => "number out of range"
  | notABool => "bool is neither 0 nor 1"
  | stringTooLong => "string length out of range"
  | notUtf8 => "string is not valid utf8"
  | tooManyEntries => "collection length out of range"
  | nestedTooDeep => "nesting too deep"
  | valueMismatch => "value does not match its declared type"
  | savedWhileRunning => "stack saved while running"
  | invertedRange => "inverted fault range"
  | tooManyFrames => "more frames than the stack depth allows"
  | unknownNode => "frame refers to an unknown node"

end Codec

inductive CodecError where
  | io
  | truncated
  | unknownTag (tag : Nat)
  | malformed (what : Codec.Malformation)
  | programMismatch (expected found : String)
  deriving DecidableEq, Inhabited

def CodecError.message : CodecError → String
  | io => "i/o failure: failed to write whole buffer"
  | truncated => "persisted data is truncated"
  | unknownTag tag => "unknown tag " ++ toString tag
  | malformed what => "malformed data: " ++ what.message
  | programMismatch expected found =>
    "persisted state belongs to program `" ++ found ++ "`, expected `" ++ expected ++ "`"

structure Written where
  bytes : List UInt8
  error : Option CodecError
  deriving DecidableEq, Inhabited

namespace Written

def ofBytes (bytes : List UInt8) : Written := ⟨bytes, none⟩

def nothing : Written := ofBytes []

def malformed (what : Codec.Malformation) : Written := ⟨[], some (.malformed what)⟩

/-- Writes more unless there was an error. -/
def andThen (w : Written) (more : Unit → Written) : Written :=
  match w.error with
  | some _ => w
  | none =>
    let next := more ()
    ⟨w.bytes ++ next.bytes, next.error⟩

instance : AndThen Written := ⟨andThen⟩

/-- Writes entries one after another. -/
def each {α : Type} (write : α → Written) : List α → Written
  | [] => nothing
  | a :: rest => write a >> each write rest

/-- Writing into a place for at most `size` bytes. -/
def limit (size : Nat) (w : Written) : Written :=
  if w.bytes.length ≤ size then w else ⟨w.bytes.take size, some .io⟩

def toExcept (w : Written) : Except CodecError (List UInt8) :=
  match w.error with
  | some error => .error error
  | none => .ok w.bytes

end Written

abbrev Reader := StateT (List UInt8) (Except CodecError)

namespace Codec

/-- The lowest `count` digits of a number to the base 256, lowest first. -/
def littleEndian : (count : Nat) → Nat → List UInt8
  | 0, _ => []
  | count + 1, n => UInt8.ofNat n :: littleEndian count (n / 256)

/-- The number with the given digits, lowest first. -/
def ofLittleEndian : List UInt8 → Nat
  | [] => 0
  | b :: bs => b.toNat + 256 * ofLittleEndian bs

def number (count n : Nat) : Written :=
  if n < 1 <<< (8 * count) then .ofBytes (littleEndian count n) else .malformed .numberOutOfRange

def take (count : Nat) : Reader (List UInt8) := fun input =>
  let taken := input.take count
  if taken.length < count then .error .truncated else .ok (taken, input.drop count)

def readNumber (count : Nat) : Reader Nat := ofLittleEndian <$> take count

def fail {α : Type} (what : Malformation) : Reader α := throw (.malformed what)

def word (n : Nat) : Written := number 2 n

def readWord : Reader Nat := readNumber 2

/-- A 32-bit number without sign. -/
def ulong (n : Nat) : Written := number 4 n

def readULong : Reader Nat := readNumber 4

def long (i : Int32) : Written := ulong i.toUInt32.toNat

def readLong : Reader Int32 := return (UInt32.ofNat (← readULong)).toInt32

def integer (i : Int) : Written :=
  if (Int32.ofInt i).toInt = i then long (Int32.ofInt i) else .malformed .numberOutOfRange

def bool (b : Bool) : Written := word (if b then 1 else 0)

def readBool : Reader Bool := do
  match ← readWord with
  | 0 => return false
  | 1 => return true
  | _ => fail .notABool

def string (s : String) : Written :=
  if s.utf8ByteSize > maxStringBytes then .malformed .stringTooLong
  else ulong s.utf8ByteSize >> .ofBytes s.toUTF8.data.toList

def readString : Reader String := do
  let size ← readULong
  if size > maxStringBytes then fail .stringTooLong
  else match String.fromUTF8? ⟨(← take size).toArray⟩ with
    | some s => return s
    | none => fail .notUtf8

def option {α : Type} (write : α → Written) : Option α → Written
  | none => bool false
  | some a => bool true >> write a

def readOption {α : Type} (read : Reader α) : Reader (Option α) := do
  if ← readBool then some <$> read else return none

def length (n : Nat) : Written := if n > maxElements then .malformed .tooManyEntries else ulong n

def readLength : Reader Nat := do
  let n ← readULong
  if n > maxElements then fail .tooManyEntries else return n

def list {α : Type} (write : α → Written) (items : List α) : Written :=
  length items.length >> .each write items

/-- Reads one entry after another. -/
def readEach {α : Type} (read : Reader α) : (count : Nat) → Reader (List α)
  | 0 => return []
  | count + 1 => do
    let a ← read
    return a :: (← readEach read count)

def readList {α : Type} (read : Reader α) : Reader (List α) := do readEach read (← readLength)

end Codec
end Tickwise
