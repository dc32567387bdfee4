/-
# `KernelLab.Lib.BitField` — fields of a packed word

`field lo w x` is the number in the `w` bits of `x` from bit `lo` on.  A word that
was packed by shifting its parts into place and combining them with `|||` is read
back by three facts: `field` distributes over `|||`, finds a part that was shifted
to its place, and does not see a part that lies above or below it.  They are simp
lemmas whose side conditions are comparisons of numbers, so

    simp (disch := omega) [field_or, …]

evaluates a field of a packed word.
-/
import Mathlib

namespace KernelLab.BitField

/-- The `w` bits of `x` from bit `lo` on. -/
def field (lo w x : Nat) : Nat := (x >>> lo) % 2 ^ w

theorem field_or (lo w x y : Nat) : field lo w (x ||| y) = field lo w x ||| field lo w y := by
  simp [field, Nat.shiftRight_or_distrib, Nat.or_mod_two_pow]

/-- A part that was shifted to the field's place. -/
theorem field_shiftLeft_self {w v : Nat} (lo : Nat) (h : v < 2 ^ w) :
    field lo w (v <<< lo) = v := by
  rw [field, Nat.shiftLeft_shiftRight, Nat.mod_eq_of_lt h]

/-- A part above the field. -/
theorem field_shiftLeft_above {lo w k : Nat} (v : Nat) (h : lo + w ≤ k) :
    field lo w (v <<< k) = 0 := by
  obtain ⟨d, rfl⟩ := Nat.exists_eq_add_of_le h
  rw [field, Nat.shiftRight_eq_div_pow, Nat.shiftLeft_eq]
  have : v * 2 ^ (lo + w + d) = v * 2 ^ d * 2 ^ w * 2 ^ lo := by
    rw [Nat.pow_add, Nat.pow_add]
    ac_rfl
  rw [this, Nat.mul_div_cancel _ (Nat.two_pow_pos lo), Nat.mul_mod_left]

/-- A part below the field. -/
theorem field_shiftLeft_below {lo k v : Nat} (w : Nat) (h : v <<< k < 2 ^ lo) :
    field lo w (v <<< k) = 0 := by
  rw [field, Nat.shiftRight_eq_div_pow, Nat.div_eq_of_lt h, Nat.zero_mod]

/-- A part masked from bit `a` on and shifted up by `b` is gone from a word of at
most `a + b` bits. -/
theorem and_mask_shiftLeft_mod {a b c : Nat} (x m : Nat) (h : c ≤ a + b) :
    (x &&& m <<< a) <<< b % 2 ^ c = 0 := by
  obtain ⟨d, hd⟩ := Nat.exists_eq_add_of_le h
  have hmask : x &&& m <<< a = (x >>> a &&& m) <<< a := by
    apply Nat.eq_of_testBit_eq
    intro i
    by_cases hi : a ≤ i
    · simp [Nat.testBit_shiftLeft, hi]
    · simp [Nat.testBit_shiftLeft, hi]
  rw [hmask, ← Nat.shiftLeft_add, hd, Nat.shiftLeft_eq, Nat.pow_add, Nat.mul_left_comm,
    Nat.mul_mod_right]

end KernelLab.BitField
