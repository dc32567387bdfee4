/-
# `KernelLab.CharDev.Fault` — a write whose copy faults midway

`copy_from_user` that meets an unmapped page stops there.  The driver subtracts what
was not copied, so the count it returns and the position it leaves are right; but the
copy function has by then filled the rest of the range it was given with zeros:

    ppos            ppos + k                     ppos + bytes_to_do
      | user's bytes   |  zeros, not reported      |

`faulting_write_clean_iff`: in either lab, a write that stops behind `k` bytes changes
nothing but the `k` bytes it reports if and only if the rest of its range was zero
before.
-/
import KernelLab.CharDev.Misc
import KernelLab.CharDev.WaitEvent

namespace KernelLab.CharDev

open Misc

/-- A write at `ppos` that reports `k` bytes of `buf`, and changed only those. -/
structure Reported (ramdisk : Ramdisk) (ppos : Nat) (buf : List UInt8) (k : Nat)
    (call : Call Ramdisk) : Prop where
  ret : call.ret = k
  advance : call.ppos = ppos + k
  effect : ∃ ramdisk', call.effect = some ramdisk' ∧
    (∀ (j : Nat) (i : Fin ramdisk_size), j < k → (i : Nat) = ppos + j →
      buf[j]? = some (ramdisk' i)) ∧
    ∀ i : Fin ramdisk_size, ((i : Nat) < ppos ∨ ppos + k ≤ i) → ramdisk' i = ramdisk i

/-- The part of the range that the copy did not reach is zero already. -/
def ZeroBehind (ramdisk : Ramdisk) (ppos lbuf k : Nat) : Prop :=
  ∀ i : Fin ramdisk_size, ppos + k ≤ i → (i : Nat) < ppos + min (ramdisk_size - ppos) lbuf →
    ramdisk i = 0

/-! ## The bytes that land -/

section Landed

variable {ppos k n : Nat} {buf : List UInt8} (hk : k ≤ buf.length)

include hk in
theorem splice_reported (ramdisk : Ramdisk) {j : Nat} {i : Fin ramdisk_size} (hj : j < k)
    (hi : (i : Nat) = ppos + j) :
    buf[j]? = some (ramdisk.splice ppos (buf.take k ++ List.replicate n 0) i) := by
  have hlen : (buf.take k).length = k := List.length_take_of_le hk
  have hi' : i = ⟨ppos + j, hi ▸ i.isLt⟩ := Fin.ext hi
  rw [hi', Region.splice_inside _ (by rw [List.length_append, hlen]; omega),
    List.getElem_append_left (by omega), List.getElem_take, List.getElem?_eq_getElem (by omega)]

include hk in
theorem splice_zeros (ramdisk : Ramdisk) {i : Fin ramdisk_size} (hlo : ppos + k ≤ i)
    (hhi : (i : Nat) < ppos + (k + n)) :
    ramdisk.splice ppos (buf.take k ++ List.replicate n 0) i = 0 := by
  have hlen : (buf.take k).length = k := List.length_take_of_le hk
  have hall : (buf.take k ++ List.replicate n 0).length = k + n := by
    rw [List.length_append, hlen, List.length_replicate]
  obtain ⟨j, hj⟩ := Nat.exists_eq_add_of_le (show ppos ≤ i by omega)
  have hi' : i = ⟨ppos + j, hj ▸ i.isLt⟩ := Fin.ext hj
  rw [hi', Region.splice_inside _ (by omega), List.getElem_append_right (by omega),
    List.getElem_replicate]

include hk in
theorem splice_rest (ramdisk : Ramdisk) {i : Fin ramdisk_size}
    (hi : (i : Nat) < ppos ∨ ppos + (k + n) ≤ i) :
    ramdisk.splice ppos (buf.take k ++ List.replicate n 0) i = ramdisk i := by
  refine Region.splice_outside _ ?_
  simpa only [List.length_append, List.length_take_of_le hk, List.length_replicate] using hi

end Landed

/-! ## Both labs -/

variable {ramdisk : Ramdisk} {ppos : Nat} {buf : List UInt8} {k : Nat}

/-- A write that stops short of its range wipes the rest of it. -/
theorem not_reported_of_nonzero (hp : ppos ≤ ramdisk_size) (hk : k ≤ room ppos buf.length)
    {i : Fin ramdisk_size} (hlo : ppos + k ≤ i) (hhi : (i : Nat) < ppos + room ppos buf.length)
    (hne : ramdisk i ≠ 0) :
    ¬ Reported ramdisk ppos buf k (Misc.mycdev_generic_write ramdisk ppos buf k) := by
  have hrl : room ppos buf.length ≤ buf.length := Nat.min_le_right _ _
  rintro ⟨-, -, ramdisk', heff, -, hrest⟩
  rw [(write_inside ramdisk hp buf hk).1] at heff
  obtain rfl := Option.some.inj heff
  have hkb : k ≤ buf.length := Nat.le_trans hk hrl
  have hz := splice_zeros (n := room ppos buf.length - k) hkb ramdisk hlo (by omega)
  exact hne ((hrest i (.inr hlo)).symm.trans hz)

theorem write_reported_iff (hp : ppos ≤ ramdisk_size) (hk : k ≤ room ppos buf.length) :
    Reported ramdisk ppos buf k (Misc.mycdev_generic_write ramdisk ppos buf k) ↔
      ZeroBehind ramdisk ppos buf.length k := by
  have hrl : room ppos buf.length ≤ buf.length := Nat.min_le_right _ _
  constructor
  · intro h i hlo hhi
    by_contra hne
    exact not_reported_of_nonzero hp hk hlo hhi hne h
  · intro hzero
    obtain ⟨heff, hret, hppos⟩ := write_inside ramdisk hp buf hk
    refine ⟨hret, by simpa using hppos, _, heff, ?_, ?_⟩
    · intro j i hj hi
      exact splice_reported (by omega) ramdisk hj hi
    · intro i hi
      by_cases hin : ppos + k ≤ i ∧ (i : Nat) < ppos + room ppos buf.length
      · rw [splice_zeros (by omega) ramdisk hin.1 (by omega), hzero i hin.1 hin.2]
      · exact splice_rest (by omega) ramdisk (by omega)

theorem faulting_write_clean_iff (ramdisk : Ramdisk) (ppos : Nat) (buf : List UInt8) (k : Nat)
    (hp : ppos ≤ ramdisk_size) (hk : k ≤ bytes_to_do ppos buf.length) :
    (Reported ramdisk ppos buf k (Misc.mycdev_generic_write ramdisk ppos buf k) ↔
      ZeroBehind ramdisk ppos buf.length k) ∧
    (Reported ramdisk ppos buf k (WaitEvent.mycdev_generic_write ramdisk ppos buf k).1 ↔
      ZeroBehind ramdisk ppos buf.length k) := by
  rw [bytes_to_do_room hp, Int.ofNat_le] at hk
  exact ⟨write_reported_iff hp hk, write_reported_iff hp hk⟩

/-- Two bytes, of which one arrives, to a device that nothing was written to yet. -/
theorem faulting_write_clean_on_zeros :
    (1 : Int) ≤ bytes_to_do (0 : Nat) 2 ∧
      Reported (fun _ => 0) 0 [72, 105] 1 (Misc.mycdev_generic_write (fun _ => 0) 0 [72, 105] 1) :=
  ⟨by decide, (faulting_write_clean_iff (fun _ => 0) 0 [72, 105] 1 (by decide)
    (by decide)).1.mpr fun _ _ _ => rfl⟩

/-- The same write to a device full of ones. -/
theorem faulting_write_wipes :
    (1 : Int) ≤ bytes_to_do (0 : Nat) 2 ∧
      ¬ Reported (fun _ => 1) 0 [72, 105] 1
        (Misc.mycdev_generic_write (fun _ => 1) 0 [72, 105] 1) :=
  ⟨by decide, not_reported_of_nonzero (i := ⟨1, by decide⟩) (by decide) (by decide)
    (by decide) (by decide) (by decide)⟩

end KernelLab.CharDev
