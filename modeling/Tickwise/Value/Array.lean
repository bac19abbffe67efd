import Tickwise.Limit
import Tickwise.Fault
import Tickwise.Value.Heap
set_option autoImplicit false

/-!
# Making arrays

New arrays of one or more dimensions. Dimensions without a size start out empty; what the innermost
arrays hold is zero.
-/
namespace Tickwise.Heap

def repeatMake (make : Heap → Variable × Heap) :
    (count : Nat) → Array Variable → Heap → Array Variable × Heap
  | 0, made, h => (made, h)
  | count + 1, made, h =>
    let (v, h) := make h
    repeatMake make count (made.push v) h

/-- An array with the given size in each leading dimension, or the zero of a type that is no
array. -/
def buildArray : (ty : Ty) → (sizes : List Nat) → Heap → Variable × Heap
  | .array elem, sizes, h =>
    let (elements, h) := repeatMake (buildArray elem sizes.tail) (sizes.headD 0) #[] h
    let (r, h) := h.alloc elements
    (Slot.temp (.array elem) (.array r), h)
  | ty, _, h => (Slot.zeroed ty, h)

/-- Checks sizes from the left: none is negative, and no product of leading sizes is over the
limit. -/
def checkSizes : (product : Nat) → List Int32 → Except Fault (List Nat)
  | _, [] => .ok []
  | product, size :: sizes =>
    if size < 0 then .error .negativeSize
    else
      let product := product * size.toInt.toNat
      if product > maxElements then .error .arrayTooLarge
      else (checkSizes product sizes).map (size.toInt.toNat :: ·)

def allocArray (h : Heap) (ty : Ty) (sizes : List Int32) : Except Fault (Variable × Heap) :=
  (checkSizes 1 sizes).map fun sizes => buildArray ty sizes h

end Tickwise.Heap
