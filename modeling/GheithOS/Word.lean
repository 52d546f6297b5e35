import Mathlib.Algebra.Group.Nat.Defs
import Mathlib.Data.Nat.Bits

/-!
# GheithOS.Word — the fixed-width integers of the source
-/

namespace GheithOS

/-- `uint32_t`. -/
abbrev Word := BitVec 32

/-- `uint8_t` and `char`. -/
abbrev Byte := BitVec 8

end GheithOS
