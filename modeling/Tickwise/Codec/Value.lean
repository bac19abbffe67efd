import Tickwise.Codec.Bytes
import Tickwise.Value.Heap
set_option autoImplicit false

/-!
# Saved types and variables

A variable is written with everything that its arrays and objects hold, so nesting is limited. It is
read as a tree, which is then given storage on a heap.
-/
namespace Tickwise.Codec

def type : (room : Nat) → Ty → Written
  | 0, .array elem => word (Ty.array elem).tag >> .malformed .nestedTooDeep
  | room + 1, .array elem => word (Ty.array elem).tag >> type room elem
  | _, .named cls => word (Ty.named cls).tag >> string cls
  | _, ty => word ty.tag

def plainType? : (tag : Nat) → Option Ty
  | 0 => some .void
  | 1 => some .bool
  | 2 => some .int
  | 3 => some .float
  | 4 => some .string
  | 5 => some .null
  | _ => none

def readType : (room : Nat) → Reader Ty
  | 0 => do
    match ← readWord with
    | 6 => fail .nestedTooDeep
    | 7 => .named <$> readString
    | tag => (plainType? tag).elim (throw (.unknownTag tag)) pure
  | room + 1 => do
    match ← readWord with
    | 6 => .array <$> readType room
    | 7 => .named <$> readString
    | tag => (plainType? tag).elim (throw (.unknownTag tag)) pure

def marker {ρ : Type} : Value ρ → Nat
  | .unassigned => 0
  | .void => 1
  | .bool _ => 2
  | .int _ => 3
  | .float _ => 4
  | .string _ => 5
  | .null => 6
  | .array _ => 7
  | .object _ _ => 8

/-- Everything of a variable but the marker. `child` writes an entry of its array or object. -/
def payload (h : Heap) (child : Variable → Written) (v : Variable) : Written :=
  ulong v.id >> option string v.name >> type maxDepth v.ty >> option string v.label >>
    match v.value with
    | .unassigned | .void | .null => .nothing
    | .bool b => bool b
    | .int i => long i
    | .float x => ulong x.bits.toNat
    | .string s => string s
    | .array r => list child (h.elements r).toList
    | .object cls r => string cls >> list child (h.elements r).toList

def slotIn (h : Heap) : (room : Nat) → Variable → Written
  | 0, v => word (marker v.value) >> .malformed .nestedTooDeep
  | room + 1, v => word (marker v.value) >> payload h (slotIn h room) v

def slot (h : Heap) (v : Variable) : Written := slotIn h maxDepth v

def readValue (child : Reader Tree) : (marker : Nat) → Reader (Value (List Tree))
  | 0 => return .unassigned
  | 1 => return .void
  | 2 => .bool <$> readBool
  | 3 => .int <$> readLong
  | 4 => return .float ⟨UInt32.ofNat (← readULong)⟩
  | 5 => .string <$> readString
  | 6 => return .null
  | 7 => .array <$> readList child
  | _ => do
    let cls ← readString
    return .object cls (← readList child)

/-- A variable nested at most `room` deep. Its value must fit its type. -/
def readTreeIn : (room : Nat) → Reader Tree
  | 0 => fail .nestedTooDeep
  | room + 1 => do
    let marker ← readWord
    if marker > 8 then throw (.unknownTag marker)
    else
      let id ← readULong
      let name ← readOption readString
      let ty ← readType maxDepth
      let label ← readOption readString
      let value ← readValue (readTreeIn room) marker
      if value.fits ty then return .mk ⟨name, id, ty, value, label⟩ else fail .valueMismatch

def readTree : Reader Tree := readTreeIn maxDepth

end Codec

namespace Heap

def mapThread {α β : Type} (f : α → Heap → β × Heap) : List α → Heap → List β × Heap
  | [], h => ([], h)
  | a :: rest, h =>
    let (b, h) := f a h
    let (bs, h) := mapThread f rest h
    (b :: bs, h)

def plant : Tree → Heap → Variable × Heap
  | .mk ⟨name, id, ty, value, label⟩, h =>
    let (value, h) : Value Ref × Heap := match value with
      | .unassigned => (.unassigned, h)
      | .void => (.void, h)
      | .bool b => (.bool b, h)
      | .int i => (.int i, h)
      | .float x => (.float x, h)
      | .string s => (.string s, h)
      | .null => (.null, h)
      | .array elements =>
        let (vs, h) := plantAll elements h
        let (r, h) := h.alloc vs.toArray
        (.array r, h)
      | .object cls fields =>
        let (vs, h) := plantAll fields h
        let (r, h) := h.alloc vs.toArray
        (.object cls r, h)
    (⟨name, id, ty, value, label⟩, h)
where
  plantAll : List Tree → Heap → List Variable × Heap
    | [], h => ([], h)
    | t :: rest, h =>
      let (v, h) := plant t h
      let (vs, h) := plantAll rest h
      (v :: vs, h)

end Heap
end Tickwise
