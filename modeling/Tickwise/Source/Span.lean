set_option autoImplicit false

/-!
# Source ranges

Byte ranges of a UTF-8 source, and the line and column of a byte offset.
-/
namespace Tickwise

structure Span where
  start : UInt32
  stop : UInt32
  deriving DecidableEq, Inhabited

namespace Span

def empty : Span := ⟨0, 0⟩

def cover (a b : Span) : Span := ⟨min a.start b.start, max a.stop b.stop⟩

def text (s : Span) : String := toString s.start ++ ".." ++ toString s.stop

end Span

def byteLength (cs : List Char) : Nat := cs.foldl (fun n c => n + c.utf8Size) 0

/-- The characters whose bytes lie before an offset; all of them when it is inside a character or
beyond the end. -/
def charsBefore (cs : List Char) (offset : Nat) : List Char :=
  let rec go : List Char → Nat → Option (List Char)
    | _, 0 => some []
    | [], _ + 1 => none
    | c :: rest, n => if c.utf8Size ≤ n then (go rest (n - c.utf8Size)).map (c :: ·) else none
  (go cs offset).getD cs

/-- The line and column, counted from 1, of a byte offset. Columns count characters. -/
def lineColumn (source : String) (offset : Nat) : Nat × Nat :=
  let before := charsBefore source.toList offset
  (before.count '\n' + 1, (before.reverse.takeWhile (· ≠ '\n')).length + 1)

end Tickwise
