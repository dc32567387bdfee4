/-
# `KernelLab.Lib.Region` — a block of cells, written in ranges

A region of `n` cells is a function on `Fin n`, so it cannot be read or written
outside itself; an access by offset and length is checked and answers `none`
when it would leave the block.  `memcpy` into a block is `store`, `memcpy` out
of it is `load`.

Below the checked accesses stand the two total operations proofs are about:

    r.splice off bs     the block with the cells from `off` on replaced by `bs`
    r.slice off len     the `len` cells from `off` on

and they compose the way a pointer running along the block needs them to:
writing `as` and then `bs` behind it is writing `as ++ bs`, and reading is
likewise.

The last section compares a block with the list of writes made to it.  `latest`
looks an offset up in such a list, later entries first; `replay_apply` says that
this is what the block holds there.
-/
import Mathlib

namespace KernelLab

/-- A block of `n` cells. -/
abbrev Region (α : Type*) (n : Nat) := Fin n → α

namespace Region

variable {α : Type*} {n : Nat}

/-- The value `bs` gives to the cell `i` when it is laid down at `off`. -/
def cover (off : Nat) (bs : List α) (i : Nat) : Option α :=
  if off ≤ i then bs[i - off]? else none

theorem cover_of_lt {off i : Nat} (bs : List α) (h : i < off) : cover off bs i = none :=
  if_neg (by omega)

theorem cover_of_ge {off i : Nat} {bs : List α} (h : off + bs.length ≤ i) :
    cover off bs i = none := by
  unfold cover
  rw [if_pos (by omega)]
  exact List.getElem?_eq_none (by omega)

/-- Outside its range, a list laid down at `off` covers nothing. -/
theorem cover_outside {off i : Nat} {bs : List α} (h : i < off ∨ off + bs.length ≤ i) :
    cover off bs i = none :=
  h.elim (cover_of_lt bs) cover_of_ge

theorem cover_add (off k : Nat) (bs : List α) : cover off bs (off + k) = bs[k]? := by
  unfold cover
  rw [if_pos (by omega)]
  congr 1
  omega

/-- Two lists laid down one behind the other are their concatenation. -/
theorem cover_append (off : Nat) (as bs : List α) (i : Nat) :
    cover off (as ++ bs) i = (cover (off + as.length) bs i).or (cover off as i) := by
  by_cases hlo : off ≤ i
  · obtain ⟨k, rfl⟩ := Nat.exists_eq_add_of_le hlo
    rw [cover_add, cover_add]
    by_cases hk : k < as.length
    · rw [cover_of_lt _ (by omega), List.getElem?_append_left hk, Option.none_or]
    · obtain ⟨j, rfl⟩ := Nat.exists_eq_add_of_le (Nat.le_of_not_lt hk)
      rw [List.getElem?_append_right (by omega), ← Nat.add_assoc, cover_add,
        List.getElem?_eq_none (l := as) (by omega), Option.or_none]
      congr 1
      omega
  · rw [cover_of_lt _ (by omega), cover_of_lt _ (by omega), cover_of_lt _ (by omega)]
    rfl

/-! ## Writing -/

/-- The cells from `off` on replaced by `bs`; what does not fit is dropped. -/
def splice (r : Region α n) (off : Nat) (bs : List α) : Region α n :=
  fun i => (cover off bs i).getD (r i)

/-- A checked write. -/
def store (r : Region α n) (off : Nat) (bs : List α) : Option (Region α n) :=
  if off + bs.length ≤ n then some (r.splice off bs) else none

theorem store_of_le {r : Region α n} {off : Nat} {bs : List α} (h : off + bs.length ≤ n) :
    r.store off bs = some (r.splice off bs) :=
  if_pos h

@[simp] theorem splice_nil (r : Region α n) (off : Nat) : r.splice off [] = r := by
  funext i
  simp [splice, cover]

/-- The frame of a write: cells outside the range keep their value. -/
theorem splice_outside (r : Region α n) {off : Nat} {bs : List α} {i : Fin n}
    (h : (i : Nat) < off ∨ off + bs.length ≤ i) : r.splice off bs i = r i := by
  simp [splice, cover_outside h]

theorem splice_inside (r : Region α n) {off k : Nat} {bs : List α} (hk : k < bs.length)
    (hn : off + k < n) : r.splice off bs ⟨off + k, hn⟩ = bs[k] := by
  simp [splice, cover_add, List.getElem?_eq_getElem hk]

theorem splice_append (r : Region α n) (off : Nat) (as bs : List α) :
    (r.splice off as).splice (off + as.length) bs = r.splice off (as ++ bs) := by
  funext i
  simp only [splice, cover_append]
  cases cover (off + as.length) bs i <;> rfl

/-! ## Reading -/

/-- The cell at `i`, if there is one. -/
def get? (r : Region α n) (i : Nat) : Option α :=
  if h : i < n then some (r ⟨i, h⟩) else none

theorem get?_of_lt (r : Region α n) {i : Nat} (h : i < n) : r.get? i = some (r ⟨i, h⟩) :=
  dif_pos h

/-- The cells from `off` on, `len` of them. -/
def slice (r : Region α n) (off len : Nat) : List α :=
  (List.range' off len).filterMap r.get?

/-- A checked read. -/
def load (r : Region α n) (off len : Nat) : Option (List α) :=
  if off + len ≤ n then some (r.slice off len) else none

theorem load_of_le {r : Region α n} {off len : Nat} (h : off + len ≤ n) :
    r.load off len = some (r.slice off len) :=
  if_pos h

@[simp] theorem slice_zero (r : Region α n) (off : Nat) : r.slice off 0 = [] := by
  simp [slice]

theorem slice_add (r : Region α n) (off a b : Nat) :
    r.slice off (a + b) = r.slice off a ++ r.slice (off + a) b := by
  simp only [slice, ← List.filterMap_append]
  congr 1
  have := @List.range'_append off a b 1
  rw [Nat.one_mul] at this
  exact this.symm

theorem slice_succ (r : Region α n) {off : Nat} (len : Nat) (h : off < n) :
    r.slice off (len + 1) = r ⟨off, h⟩ :: r.slice (off + 1) len := by
  simp [slice, List.range'_succ, get?_of_lt r h]

@[simp] theorem length_slice (r : Region α n) {off len : Nat} (h : off + len ≤ n) :
    (r.slice off len).length = len := by
  induction len generalizing off with
  | zero => rfl
  | succ len ih => rw [slice_succ r len (by omega), List.length_cons, ih (by omega)]

theorem length_of_load {r : Region α n} {off len : Nat} {bs : List α}
    (h : r.load off len = some bs) : bs.length = len := by
  unfold load at h
  split at h
  · obtain rfl := Option.some.inj h
    exact length_slice r (by assumption)
  · cases h

theorem getElem?_slice (r : Region α n) {off len k : Nat} (h : off + len ≤ n) (hk : k < len) :
    (r.slice off len)[k]? = some (r ⟨off + k, by omega⟩) := by
  induction len generalizing off k with
  | zero => omega
  | succ len ih =>
      rw [slice_succ r len (by omega)]
      cases k with
      | zero => rfl
      | succ k =>
          rw [List.getElem?_cons_succ, ih (by omega) (by omega)]
          congr 2
          exact Fin.ext (by simp only; omega)

/-- Blocks that agree on a range have the same slice there. -/
theorem slice_congr {r r' : Region α n} {off len : Nat}
    (h : ∀ i : Fin n, off ≤ i → (i : Nat) < off + len → r i = r' i) :
    r.slice off len = r'.slice off len := by
  refine List.filterMap_congr ?_
  intro i hi
  rw [List.mem_range'_1] at hi
  unfold get?
  split
  · rw [h _ hi.1 hi.2]
  · rfl

/-- What was written is read back. -/
theorem slice_splice (r : Region α n) {off : Nat} {bs : List α} (h : off + bs.length ≤ n) :
    (r.splice off bs).slice off bs.length = bs := by
  refine List.ext_getElem? fun k => ?_
  by_cases hk : k < bs.length
  · rw [getElem?_slice _ h hk, splice_inside _ hk, List.getElem?_eq_getElem hk]
  · rw [List.getElem?_eq_none (by rw [length_slice _ h]; omega), List.getElem?_eq_none (by omega)]

/-- A prefix of a slice is the shorter slice. -/
theorem take_slice (r : Region α n) {off len m : Nat} (hm : m ≤ len) (h : off + len ≤ n) :
    (r.slice off len).take m = r.slice off m := by
  obtain ⟨d, rfl⟩ := Nat.exists_eq_add_of_le hm
  rw [slice_add]
  exact List.take_left' (length_slice r (by omega))

/-! ## The list of writes -/

/-- A write: where, and what. -/
structure Write (α : Type*) where
  off : Nat
  data : List α

/-- The value the last write covering `i` gave it. -/
def latest : List (Write α) → Nat → Option α
  | [], _ => none
  | w :: ws, i => (latest ws i).or (cover w.off w.data i)

/-- A block after a list of writes, in order. -/
def replay (r : Region α n) (ws : List (Write α)) : Region α n :=
  ws.foldl (fun r w => r.splice w.off w.data) r

theorem replay_concat (r : Region α n) (ws : List (Write α)) (w : Write α) :
    r.replay (ws ++ [w]) = (r.replay ws).splice w.off w.data := by
  simp [replay, List.foldl_append]

/-- A block holds, cell by cell, the latest write to it. -/
theorem replay_apply (r : Region α n) (ws : List (Write α)) (i : Fin n) :
    r.replay ws i = (latest ws i).getD (r i) := by
  induction ws generalizing r with
  | nil => rfl
  | cons w ws ih =>
      show replay (r.splice w.off w.data) ws i = _
      rw [ih]
      simp only [latest, splice]
      cases latest ws i <;> rfl

end Region

end KernelLab
