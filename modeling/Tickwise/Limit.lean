set_option autoImplicit false

/-!
# Size limits

Limits that saved state and running programs share: what a program may build can be saved, and
what is read back is never larger.
-/
namespace Tickwise

def maxStringBytes : Nat := 0x1000000

/-- Arrays and field lists have at most this many entries. -/
def maxElements : Nat := 0x100000

def maxDepth : Nat := 64

end Tickwise
