/-
# `KernelLab.Lib.CInt` — C integers of the LP64 model, as integers

A C value is an `Int` together with the promise that it lies in the range of
its type; a conversion to a type reduces into that range.  `int` is 32 bits
wide, `long`, `size_t` and `loff_t` are 64.  A conversion to a signed type
that does not fit keeps the low bits, as the compilers of the kernel do.

Every conversion is a remainder by a literal, so `omega` decides what is left
once `toInt`, `toULong` and `toLLong` are unfolded.

A comparison with a remainder is off where the number has gone round: `mod_le_iff` says
which numbers pass for small ones.
-/
import Mathlib

namespace KernelLab.CInt

/-- Conversion to `int`: the low 32 bits, read in two's complement. -/
def toInt (x : Int) : Int := (x + 2 ^ 31) % 2 ^ 32 - 2 ^ 31

/-- Conversion to `unsigned long`, `size_t` or `unsigned long long`. -/
def toULong (x : Int) : Int := x % 2 ^ 64

/-- Conversion to `long long`, which is `loff_t`. -/
def toLLong (x : Int) : Int := (x + 2 ^ 63) % 2 ^ 64 - 2 ^ 63

/-- The largest `int`. -/
def INT_MAX : Int := 2 ^ 31 - 1

theorem toInt_of_range {x : Int} (hlo : -2 ^ 31 ≤ x) (hhi : x ≤ INT_MAX) : toInt x = x := by
  unfold INT_MAX at hhi
  unfold toInt
  omega

theorem toULong_of_range {x : Int} (hlo : 0 ≤ x) (hhi : x < 2 ^ 64) : toULong x = x := by
  unfold toULong
  omega

theorem toLLong_of_range {x : Int} (hlo : -2 ^ 63 ≤ x) (hhi : x < 2 ^ 63) : toLLong x = x := by
  unfold toLLong
  omega

/-- `atomic_inc` on an `atomic_t`, which is an `int` that wraps. -/
def atomicInc (x : Int) : Int := toInt (x + 1)

/-- `atomic_dec` on an `atomic_t`. -/
def atomicDec (x : Int) : Int := toInt (x - 1)

/-- Counting in an `atomic_t` is counting, reduced to `int`. -/
theorem atomicInc_toInt (x : Int) : atomicInc (toInt x) = toInt (x + 1) := by
  unfold atomicInc toInt
  omega

theorem atomicInc_of_lt {x : Int} (hlo : 0 ≤ x) (hhi : x < INT_MAX) : atomicInc x = x + 1 :=
  toInt_of_range (by omega) (by omega)

theorem atomicDec_of_pos {x : Int} (hlo : 0 < x) (hhi : x ≤ INT_MAX) : atomicDec x = x - 1 :=
  toInt_of_range (by omega) (by omega)

/-! ## Comparing a number that may have gone round -/

/-- `x` has gone round at least once, and come to rest at `bound` or below. -/
def WrapsOnto (m bound x : Nat) : Prop := ∃ q, 0 < q ∧ q * m ≤ x ∧ x ≤ q * m + bound

theorem mod_le_iff {m bound x : Nat} (h : bound < m) :
    x % m ≤ bound ↔ x ≤ bound ∨ WrapsOnto m bound x := by
  have hx : x / m * m + x % m = x := Nat.div_add_mod' x m
  constructor
  · intro hle
    rcases Nat.eq_zero_or_pos (x / m) with hq | hq
    · left
      rw [hq, Nat.zero_mul, Nat.zero_add] at hx
      omega
    · right
      exact ⟨x / m, hq, by omega, by omega⟩
  · rintro (hle | ⟨q, -, hlo, hhi⟩)
    · rw [Nat.mod_eq_of_lt (by omega)]
      exact hle
    · obtain ⟨r, rfl⟩ := Nat.exists_eq_add_of_le hlo
      rw [Nat.mul_add_mod', Nat.mod_eq_of_lt (by omega)]
      omega

theorem WrapsOnto.lt {m bound x : Nat} (h : bound < m) (hw : WrapsOnto m bound x) :
    bound < x := by
  obtain ⟨q, hq, hlo, -⟩ := hw
  calc bound < m := h
    _ ≤ q * m := Nat.le_mul_of_pos_left m hq
    _ ≤ x := hlo

end KernelLab.CInt
