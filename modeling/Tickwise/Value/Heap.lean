import Tickwise.Value.Basic
set_option autoImplicit false

/-!
# The heap

Storage of arrays and objects. Every value that holds a reference shares what is stored there, so a
write through one is seen through all.
-/
namespace Tickwise

structure Heap where
  cells : Array (Array Variable)
  deriving DecidableEq, Inhabited

namespace Heap

def empty : Heap := ⟨#[]⟩

def size (h : Heap) : Nat := h.cells.size

/-- What is stored under a reference; nothing under one never handed out. -/
def elements (h : Heap) (r : Ref) : Array Variable := h.cells.getD r #[]

def read? (h : Heap) (r : Ref) (i : Nat) : Option Variable := (h.elements r)[i]?

def alloc (h : Heap) (elements : Array Variable) : Ref × Heap :=
  (h.cells.size, ⟨h.cells.push elements⟩)

def write (h : Heap) (r : Ref) (i : Nat) (v : Variable) : Heap :=
  ⟨h.cells.modify r fun elements => elements.setIfInBounds i v⟩

def extend (h : Heap) (r : Ref) (length : Nat) (filler : Variable) : Heap :=
  ⟨h.cells.modify r fun elements => elements ++ Array.replicate (length - elements.size) filler⟩

def newArray (h : Heap) (elem : Ty) (elements : List Variable) : Variable × Heap :=
  let (r, h) := h.alloc elements.toArray
  (Slot.temp (.array elem) (.array r), h)

def newObject (h : Heap) (c : ClassLayout) : Variable × Heap :=
  let fields := c.fields.map fun f => { Slot.zeroed f.ty with name := some f.name }
  let (r, h) := h.alloc fields.toArray
  (Slot.temp (.named c.name) (.object c.name r), h)

/-!
### Equality by content

Two variables are the same by content if everything that can be read from them is, whatever storage it
is in. Numbers are compared as numbers: no NaN is the same as another.
-/

def sameEntries (same : Variable → Variable → Bool) (vs ws : List Variable) : Bool :=
  vs.length = ws.length && (vs.zip ws).all fun (v, w) => same v w

def sameValue (h k : Heap) (same : Variable → Variable → Bool) : Value Ref → Value Ref → Bool
  | .array r, .array s => sameEntries same (h.elements r).toList (k.elements s).toList
  | .object c r, .object d s =>
    c = d && sameEntries same (h.elements r).toList (k.elements s).toList
  | .float x, .float y => x.eq y
  | a, b => a = b

/-- Compares a variable of one heap with one of another, through fewer than `depth` references one
inside another. -/
def sameTo (h k : Heap) : (depth : Nat) → Variable → Variable → Bool
  | 0, _, _ => false
  | depth + 1, v, w =>
    v.name = w.name && v.id = w.id && v.ty = w.ty && v.label = w.label &&
      sameValue h k (sameTo h k depth) v.value w.value

/-- Compares two variables of a heap. Without a cycle no path of references is longer than the
heap. -/
def sameContent (h : Heap) (v w : Variable) : Bool := sameTo h h (h.size + 2) v w

end Heap
end Tickwise
