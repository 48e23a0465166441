/-!
# Signed readings of numbers

Numbers of states, rules and places are never negative, but some outputs hold them in signed words of
a fixed width. A number above the range of its word is written as the negative number with the same
bits.
-/

set_option autoImplicit false

namespace AdaptiveLL

/-- The value of the low 32 bits as a signed number. -/
def signed32 (n : Int) : Int := Int.bmod n 4294967296

/-- The value of the low 64 bits as a signed number. -/
def signed64 (n : Int) : Int := Int.bmod n 18446744073709551616

end AdaptiveLL
