/-
# `KernelLab.Lib.Serial` — comparing clock values that may wrap

A 64-bit clock is compared by the sign of the difference, so that a value just past the
wrap comes after one just before it:

    before a b   iff   (s64)(a - b) < 0

This is not an order on all 64-bit values: going round in three steps, each comes before
the next.  It is one on every half of the circle; `before_iff_lt` is the half that begins
at 0.
-/
import KernelLab.Lib.CInt

namespace KernelLab.Serial

open KernelLab.CInt

/-- `(s64)(a - b) < 0` -/
def before (a b : Nat) : Prop := toLLong (toULong ((a : Int) - b)) < 0

instance decBefore (a b : Nat) : Decidable (before a b) :=
  inferInstanceAs (Decidable (toLLong (toULong ((a : Int) - b)) < 0))

theorem before_iff_lt {a b : Nat} (ha : a < 2 ^ 63) (hb : b < 2 ^ 63) : before a b ↔ a < b := by
  unfold before toLLong toULong
  omega

end KernelLab.Serial
