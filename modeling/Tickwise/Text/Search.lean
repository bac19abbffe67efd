set_option autoImplicit false

/-!
# Search

The first occurrence of one text in another, in time proportional to their lengths: each window of
the text has a sum, which the next window's follows from, and only a window with the sum of what is
searched for is compared with it.
-/
namespace Tickwise.Text

def sumBase : UInt64 := 0x9E3779B97F4A7C15

def sumDigit (c : Char) : UInt64 := c.val.toUInt64

def windowSum (cs : List Char) : UInt64 := cs.foldl (fun n c => n * sumBase + sumDigit c) 0

/-- What a number counts for in a sum when the digits `cs` come after it. -/
def weighed (n : UInt64) (cs : List Char) : UInt64 := cs.foldl (fun n _ => n * sumBase) n

/-- Searches from position `i` on. `window` is the text from there, `ahead` the text behind the
window and `sum` the window's sum; `weight` is what 1 counts for before a window. -/
def indexFrom? (needle : List Char) (target weight : UInt64) :
    (window ahead : List Char) → (sum : UInt64) → (i : Nat) → Option Nat
  | window, ahead, sum, i =>
    if sum = target ∧ needle.isPrefixOf window then some i
    else
      match window, ahead with
      | c :: window, d :: ahead =>
        let next := sum * sumBase + sumDigit d - sumDigit c * weight
        indexFrom? needle target weight window ahead next (i + 1)
      | _, _ => none

def indexOf? (needle text : List Char) : Option Nat :=
  indexFrom? needle (windowSum needle) (weighed 1 needle) text (text.drop needle.length)
    (windowSum (text.take needle.length)) 0

end Tickwise.Text
