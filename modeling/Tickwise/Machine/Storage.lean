import Tickwise.Limit
import Tickwise.Machine.Basic
import Tickwise.Value.Array
set_option autoImplicit false

/-!
# Storage

Following a place from its variable to what is read or written there, with index values that are
already computed.
-/
namespace Tickwise

inductive Storage where
  | var (id : VarId)
  /-- An element of an array or a field of an object. -/
  | cell (ref : Ref) (position : Nat)
  deriving DecidableEq, Inhabited

def Slot.locked (ref : Ref) (v : Variable) : Variable :=
  match v.value with
  | .object _ r => if r = ref then { v with value := .array ref } else v
  | _ => v

def Heap.locked (h : Heap) (ref : Ref) : Heap :=
  ⟨(h.cells.map (·.map (Slot.locked ref))).setIfInBounds ref #[Slot.temp .void (.array ref)]⟩

namespace Machine

def read? (m : Machine) : Storage → Option Variable
  | .var id => m.findVar? id
  | .cell ref position => m.heap.read? ref position

def write (m : Machine) (storage : Storage) (v : Variable) : Machine :=
  match storage with
  | .var id => m.setVar id v
  | .cell ref position => { m with heap := m.heap.write ref position v }

end Machine

namespace Exec

/-- What a read of storage that is not there leads to. No check is made that a field exists. -/
def missing {α : Type} (span : Span) : Storage → Exec α
  | .var _ => faultAt span .uninitialized
  | .cell _ _ => crash .panic

def read (span : Span) (storage : Storage) : Exec Variable := do
  match (← get).read? storage with
  | some v => return v
  | none => missing span storage

/-- Lengthens an array up to and with a position; all new elements hold the same zero. -/
def extendArray (span : Span) (ref : Ref) (position : Nat) (elem : Ty) : Exec Unit := do
  if position ≥ maxElements then faultAt span .arrayTooLarge
  else
    let (filler, heap) ← checkHeap span (·.allocArray elem [])
    modify ({ · with heap := heap.extend ref (position + 1) filler })

/-- An element of an array. Beyond the end there is one only where the array may grow. -/
def element (span : Span) (container : Variable) (index : Int32) (elem : Ty) (grow : Bool) :
    Exec Storage := do
  let ref ← check span container.toArray
  if index < 0 then faultAt span .indexOutOfRange
  else
    let position := index.toInt.toNat
    if position < ((← get).heap.elements ref).size then return .cell ref position
    else if grow then
      extendArray span ref position elem
      return .cell ref position
    else faultAt span .indexOutOfRange

/-- The storage that a path leads to from `storage`. `indices` are the values of its index expressions;
the last access may grow an array if `grow` says so. -/
def follow {ι : Type} (span : Span) (grow : Bool) :
    (path : List (Access ι)) → (indices : List Variable) → Storage → Exec Storage
  | [], _, storage => return storage
  | .field position :: path, indices, storage => do
    let container ← read span storage
    let (_, ref) ← check span container.toObject
    follow span grow path indices (.cell ref position)
  | .index _ elem :: path, indices, storage => do
    let container ← read span storage
    let index ← check span ((indices.head?.map Slot.toInt).getD (.error .uninitialized))
    let storage ← element span container index elem (grow && path.isEmpty)
    follow span grow path indices.tail storage

def locate {ι : Type} (span : Span) (place : Place ι) (grow : Bool) : Exec Storage := do
  let _ ← read span (.var place.root)
  follow span grow place.path (← operands) (.var place.root)

/-- Why the process dies of storing a value as one of type `ty`, if it does. No array or object can be read
while something in it is written. -/
def storeCrash? (storage : Storage) (ty : Ty) (v : Variable) (h : Heap) : Option Crash :=
  match storage with
  | .var _ => h.crash? ty v
  | .cell ref _ =>
    (h.crash? ty v).or (((h.locked ref).crash? ty (v.locked ref)).map fun _ => .panic)

def store (span : Span) (storage : Storage) (v : Variable) : Exec Variable := do
  let target ← read span storage
  let stored ← checkCrash span (storeCrash? storage target.ty v) (·.assign target v)
  modify (·.write storage stored)
  return stored.toTemp

end Exec
end Tickwise
