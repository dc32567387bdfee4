/-
# `KernelLab.Lib.CString` — C strings and `strcmp`

A C string is its bytes up to the terminator, so none of them is zero.  `strcmp`
compares as unsigned bytes, the terminator below every other byte; its sign is the
lexicographic order of the byte values, and it is zero on equal strings only.

The bounded functions `strnlen` and `strncmp` also take arrays that hold no terminator,
so they are given the bytes of the object itself, and answer `none` when they would
read behind it.  What they see of an object is `visible`: the bytes before the first
terminator, and not more than the bound.
-/
import Mathlib

namespace KernelLab

abbrev CChar := {b : UInt8 // b ≠ 0}

abbrev CString := List CChar

/-- The string held by an array of bytes, up to the terminator. -/
def CString.ofBytes : List UInt8 → CString
  | [] => []
  | b :: bs => if h : b = 0 then [] else ⟨b, h⟩ :: ofBytes bs

def strcmp : CString → CString → Int
  | [], [] => 0
  | [], _ :: _ => -1
  | _ :: _, [] => 1
  | c :: cs, d :: ds => if c.val < d.val then -1 else if d.val < c.val then 1 else strcmp cs ds

/-- The values the bytes are compared by. -/
def CString.values (s : CString) : List Nat := s.map fun c => c.val.toNat

theorem strcmp_cases (s t : CString) :
    (strcmp s t < 0 ∧ s.values < t.values) ∨ (strcmp s t = 0 ∧ s = t) ∨
      (0 < strcmp s t ∧ t.values < s.values) := by
  fun_induction strcmp s t with
  | case1 => exact .inr (.inl ⟨rfl, rfl⟩)
  | case2 => exact .inl ⟨by decide, List.nil_lt_cons _ _⟩
  | case3 => exact .inr (.inr ⟨by decide, List.nil_lt_cons _ _⟩)
  | case4 c cs d ds h => exact .inl ⟨by decide, List.cons_lt_cons_iff.mpr (.inl h)⟩
  | case5 c cs d ds _ h =>
      exact .inr (.inr ⟨by decide, List.cons_lt_cons_iff.mpr (.inl h)⟩)
  | case6 c cs d ds h h' ih =>
      have hcd : c = d := Subtype.ext (UInt8.le_antisymm (UInt8.not_lt.mp h') (UInt8.not_lt.mp h))
      subst hcd
      rcases ih with ⟨h, hlt⟩ | ⟨h, rfl⟩ | ⟨h, hlt⟩
      · exact .inl ⟨h, List.cons_lt_cons_iff.mpr (.inr ⟨rfl, hlt⟩)⟩
      · exact .inr (.inl ⟨h, rfl⟩)
      · exact .inr (.inr ⟨h, List.cons_lt_cons_iff.mpr (.inr ⟨rfl, hlt⟩)⟩)

theorem strcmp_neg {s t : CString} : strcmp s t < 0 ↔ s.values < t.values := by
  rcases strcmp_cases s t with ⟨h, hlt⟩ | ⟨h, rfl⟩ | ⟨h, hlt⟩
  · exact iff_of_true h hlt
  · exact iff_of_false (by omega) (lt_irrefl _)
  · exact iff_of_false (by omega) hlt.not_gt

/-- Strings with the same byte values are the same. -/
theorem CString.values_injective : Function.Injective CString.values := by
  intro s t h
  rcases strcmp_cases s t with ⟨-, hlt⟩ | ⟨-, rfl⟩ | ⟨-, hlt⟩
  · exact absurd hlt (h ▸ lt_irrefl _)
  · rfl
  · exact absurd hlt (h ▸ lt_irrefl _)

/-! ## Bounded strings -/

/-- The string as it lies in memory. -/
def CString.bytes (s : CString) : List UInt8 := s.map Subtype.val ++ [0]

def strnlen : List UInt8 → Nat → Option Nat
  | _, 0 => some 0
  | [], _ + 1 => none
  | b :: bs, n + 1 => if b = 0 then some 0 else (strnlen bs n).map (· + 1)

def strncmp : List UInt8 → List UInt8 → Nat → Option Int
  | _, _, 0 => some 0
  | a :: as, b :: bs, n + 1 =>
      if a ≠ b then some (if a < b then -1 else 1)
      else if a = 0 then some 0
      else strncmp as bs n
  | [], _, _ + 1 => none
  | _ :: _, [], _ + 1 => none

/-- The bytes before the terminator, `n` of them at most. -/
def visible : Nat → List UInt8 → List UInt8
  | 0, _ => []
  | _ + 1, [] => []
  | n + 1, b :: bs => if b = 0 then [] else b :: visible n bs

/-- A bounded function stays inside the object. -/
def Readable (n : Nat) (bs : List UInt8) : Prop := n ≤ bs.length ∨ 0 ∈ bs

theorem CString.readable_bytes (s : CString) (n : Nat) : Readable n s.bytes :=
  .inr (List.mem_append_right _ (List.mem_singleton.mpr rfl))

theorem Readable.tail {n : Nat} {b : UInt8} {bs : List UInt8} (h : Readable (n + 1) (b :: bs))
    (hb : b ≠ 0) : Readable n bs := by
  rcases h with h | h
  · exact .inl (Nat.le_of_succ_le_succ h)
  · exact .inr ((List.mem_cons.mp h).resolve_left (Ne.symm hb))

theorem not_readable_nil (n : Nat) : ¬ Readable (n + 1) [] := by
  rintro (h | h)
  · cases h
  · cases h

theorem strnlen_eq {n : Nat} {bs : List UInt8} (h : Readable n bs) :
    strnlen bs n = some (visible n bs).length := by
  induction n generalizing bs with
  | zero => cases bs <;> rfl
  | succ n ih =>
      cases bs with
      | nil => exact absurd h (not_readable_nil n)
      | cons b bs =>
          by_cases hb : b = 0
          · simp [strnlen, visible, hb]
          · simp [strnlen, visible, hb, ih (h.tail hb)]

/-- `strncmp` compares what is visible of the two objects. -/
theorem strncmp_eq_zero_iff {n : Nat} {as bs : List UInt8} (ha : Readable n as)
    (hb : Readable n bs) :
    ∃ ret, strncmp as bs n = some ret ∧ (ret = 0 ↔ visible n as = visible n bs) := by
  induction n generalizing as bs with
  | zero => exact ⟨0, by simp [strncmp], iff_of_true rfl rfl⟩
  | succ n ih =>
      cases as with
      | nil => exact absurd ha (not_readable_nil n)
      | cons a as =>
          cases bs with
          | nil => exact absurd hb (not_readable_nil n)
          | cons b bs =>
              by_cases hab : a = b
              · subst hab
                by_cases h0 : a = 0
                · exact ⟨0, by simp [strncmp, h0], by simp [visible, h0]⟩
                · obtain ⟨ret, hret, hiff⟩ := ih (ha.tail h0) (hb.tail h0)
                  exact ⟨ret, by simp [strncmp, h0, hret], by simp [visible, h0, hiff]⟩
              · refine ⟨if a < b then -1 else 1, by simp [strncmp, hab], ?_⟩
                refine iff_of_false (by split <;> decide) ?_
                -- the first bytes differ, so at most one of them is the terminator
                by_cases ha0 : a = 0
                · have hb0 : b ≠ 0 := fun h => hab (ha0.trans h.symm)
                  simp [visible, ha0, hb0]
                · by_cases hb0 : b = 0
                  · simp [visible, ha0, hb0]
                  · simp [visible, ha0, hb0, hab]

end KernelLab
