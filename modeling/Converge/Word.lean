/-!
# Words

Numbers that fit into 64 bits.
-/

namespace Converge

/-- The least number that does not fit into 64 bits. -/
def wordBound : Nat := 0x10000000000000000

/-- Does the number fit into 64 bits? -/
def isWord (n : Nat) : Bool := n < wordBound

end Converge
