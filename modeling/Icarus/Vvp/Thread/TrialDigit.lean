import Icarus.Vvp.Thread.DivideBits

/-!
# The trial digits of a wide division

A trial digit is the quotient of top words, so it is too large where the lower
words of the divisor count for much. How far it is from the digit of the quotient,
and how often the divisor is then added back, is told at every digit step of
`divide_bits`.
-/

namespace Icarus.Vvp

open Icarus.Core

variable {bp : List (BitVec 64)} {words btop curPtr : Nat} {s : DivideBits} {b window : Nat}

/-! ## The digit steps -/

end Icarus.Vvp
