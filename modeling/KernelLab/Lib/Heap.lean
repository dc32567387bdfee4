/-
# `KernelLab.Lib.Heap` — binary heaps in an array

The array is its keys, `k : Nat → K`, of which the first `n` count; the greatest is on
top.  An element that is out of order at `i` is moved by swaps along one path, and what
holds in between is said relative to that one place:

    Apart k n i    the pairs that do not touch `i` are in order, and so would be
                   the children of `i` under its parent
    Over k i       `i` is in order with its parent
    Under k n i    `i` is in order with its children

All three make a heap (`Apart.isHeap`).  `Apart.up` and `Apart.down` are the two swaps:
one gives up `Over` at the parent to gain `Under` there, the other the reverse.
-/
import Mathlib

namespace KernelLab.Heap

variable {K : Type*} [LinearOrder K]

def parent (i : Nat) : Nat := (i - 1) / 2

theorem parent_lt {i : Nat} (h : 0 < i) : parent i < i := by
  unfold parent
  omega

theorem parent_eq_iff {i j : Nat} (hj : 0 < j) : parent j = i ↔ j = 2 * i + 1 ∨ j = 2 * i + 2 := by
  unfold parent
  omega

/-- No key is above its parent's. -/
def IsHeap (k : Nat → K) (n : Nat) : Prop := ∀ i, 0 < i → i < n → k i ≤ k (parent i)

structure Apart (k : Nat → K) (n i : Nat) : Prop where
  off : ∀ j, 0 < j → j < n → j ≠ i → parent j ≠ i → k j ≤ k (parent j)
  grand : 0 < i → ∀ j, 0 < j → j < n → parent j = i → k j ≤ k (parent i)

def Over (k : Nat → K) (i : Nat) : Prop := 0 < i → k i ≤ k (parent i)

def Under (k : Nat → K) (n i : Nat) : Prop := ∀ j, 0 < j → j < n → parent j = i → k j ≤ k i

variable {k : Nat → K} {n i : Nat}

theorem IsHeap.le_root (h : IsHeap k n) (hi : i < n) : k i ≤ k 0 := by
  induction i using Nat.strongRecOn with
  | ind i ih =>
      rcases Nat.eq_zero_or_pos i with rfl | hpos
      · exact le_rfl
      · have hp := parent_lt hpos
        exact (h i hpos hi).trans (ih (parent i) hp (hp.trans hi))

theorem IsHeap.mono {m : Nat} (h : IsHeap k n) (hm : m ≤ n) : IsHeap k m :=
  fun j hj hlt => h j hj (hlt.trans_le hm)

/-- Whatever is put at one place of a heap, the rest is still in order. -/
theorem IsHeap.apart_update (h : IsHeap k n) (i : Nat) (x : K) :
    Apart (Function.update k i x) n i := by
  constructor
  · intro j hj hjn hji hpi
    rw [Function.update_of_ne hji, Function.update_of_ne hpi]
    exact h j hj hjn
  · intro hi j hj hjn hpj
    have hpar := parent_lt hi
    have hji := parent_lt hj
    rw [Function.update_of_ne (by omega), Function.update_of_ne (by omega)]
    have hin : i < n := by omega
    calc k j ≤ k (parent j) := h j hj hjn
      _ = k i := by rw [hpj]
      _ ≤ k (parent i) := h i hi hin

/-- A least element may be put at the end. -/
theorem IsHeap.snoc_bot (h : IsHeap k n) {x : K} (hx : ∀ i, x ≤ k i) :
    IsHeap (Function.update k n x) (n + 1) := by
  intro j hj hjn
  have hp := parent_lt hj
  rw [Function.update_of_ne (show parent j ≠ n by omega)]
  by_cases hjn' : j = n
  · rw [hjn', Function.update_self]
    exact hx _
  · rw [Function.update_of_ne hjn']
    exact h j hj (by omega)

namespace Apart

theorem isHeap (h : Apart k n i) (hover : Over k i) (hunder : Under k n i) : IsHeap k n := by
  intro j hj hjn
  by_cases hji : j = i
  · subst hji
    exact hover hj
  · by_cases hpi : parent j = i
    · rw [hpi]
      exact hunder j hj hjn hpi
    · exact h.off j hj hjn hji hpi

/-- The element at `i` is above its parent, and the two change places. -/
theorem up (h : Apart k n i) (hi : 0 < i) (hin : i < n) (hlt : k (parent i) < k i) :
    Apart (k ∘ Equiv.swap i (parent i)) n (parent i) ∧
      Under (k ∘ Equiv.swap i (parent i)) n (parent i) := by
  have hp := parent_lt hi
  -- a child of the old parent was below it, or is the element that moves
  have hsib : ∀ j, 0 < j → j < n → parent j = parent i →
      k (Equiv.swap i (parent i) j) ≤ k (parent i) := by
    intro j hj hjn hpj
    have hj' := parent_lt hj
    by_cases hji : j = i
    · rw [hji, Equiv.swap_apply_left]
    · rw [Equiv.swap_apply_of_ne_of_ne hji (by omega), ← hpj]
      exact h.off j hj hjn hji (by omega)
  refine ⟨⟨?_, ?_⟩, ?_⟩
  · intro j hj hjn hjp hpp
    have hj' := parent_lt hj
    have hji : j ≠ i := by
      rintro rfl
      exact hpp rfl
    simp only [Function.comp_apply, Equiv.swap_apply_of_ne_of_ne hji hjp]
    by_cases hpi : parent j = i
    · rw [hpi, Equiv.swap_apply_left]
      exact h.grand hi j hj hjn hpi
    · rw [Equiv.swap_apply_of_ne_of_ne hpi hpp]
      exact h.off j hj hjn hji hpi
  · intro hpos j hj hjn hpj
    have hpp := parent_lt hpos
    simp only [Function.comp_apply]
    rw [Equiv.swap_apply_of_ne_of_ne (show parent (parent i) ≠ i by omega) (by omega)]
    exact (hsib j hj hjn hpj).trans (h.off _ hpos (hp.trans hin) (by omega) (by omega))
  · intro j hj hjn hpj
    simp only [Function.comp_apply, Equiv.swap_apply_right]
    exact (hsib j hj hjn hpj).trans hlt.le

/-- The element at `i` is below its greatest child, and the two change places. -/
theorem down (h : Apart k n i) (hover : Over k i) {c : Nat} (hc : 0 < c) (hpc : parent c = i)
    (hlt : k i < k c) (hmax : ∀ j, 0 < j → j < n → parent j = i → k j ≤ k c) (hcn : c < n) :
    Apart (k ∘ Equiv.swap c i) n c ∧ Over (k ∘ Equiv.swap c i) c := by
  have hic := parent_lt hc
  refine ⟨⟨?_, ?_⟩, ?_⟩
  · intro j hj hjn hjc hpj
    have hj' := parent_lt hj
    simp only [Function.comp_apply]
    by_cases hji : j = i
    · subst hji
      rw [Equiv.swap_apply_right, Equiv.swap_apply_of_ne_of_ne hpj (by omega)]
      exact h.grand hj c hc hcn hpc
    · rw [Equiv.swap_apply_of_ne_of_ne hjc hji]
      by_cases hpi : parent j = i
      · rw [hpi, Equiv.swap_apply_right]
        exact hmax j hj hjn hpi
      · rw [Equiv.swap_apply_of_ne_of_ne hpj hpi]
        exact h.off j hj hjn hji hpi
  · intro _ j hj hjn hpj
    have hj' := parent_lt hj
    simp only [Function.comp_apply]
    rw [hpc, Equiv.swap_apply_right, Equiv.swap_apply_of_ne_of_ne (by omega) (by omega), ← hpj]
    exact h.off j hj hjn (by omega) (by omega)
  · intro _
    simp only [Function.comp_apply]
    rw [hpc, Equiv.swap_apply_left, Equiv.swap_apply_right]
    exact hlt.le

end Apart

end KernelLab.Heap
