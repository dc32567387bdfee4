/-
# `KernelLab.Kvm.SegmentDescriptor` — the descriptor tables of `kvm-test.c`

`fill_segment_descriptor` packs a `kvm_segment` into the eight bytes of an x86
segment descriptor and stores them at `selector >> 3` of a table.  The layout
splits two of the fields:

    bit     63      56 55 54 53 52 51    48 47 46 45 44 43   40 39       16 15        0
           base 24:31  g  db l avl lim16:19  p  dpl   s   type  base 0:23   limit 0:15

The source masks the upper parts of `limit` and `base` where they stand,
`limit & 0xf0000` and `base & 0xff000000`, and then shifts them by their *target*
position, 48 and 56, instead of by the distance of 32.  What it shifts is at bit 64
and above, and is lost.

## What is proved

`segments_decode_iff`: for every sequence of calls with pairwise different indices,
reading the entries back by the x86 layout gives every segment back, with the other
entries untouched, exactly when every segment has a base below `2 ^ 24` and a
limit, in units of its granularity, below `2 ^ 16`.  The part about the other
entries, and all the other fields, hold regardless; it is `decode_descriptor` that
shows what becomes of base and limit.

The parameter `lt` of the source is not used by it and has no counterpart.
-/
import KernelLab.Lib.BitField

namespace KernelLab.Kvm

open KernelLab.BitField

/-- `struct kvm_segment`, without the fields the packing does not read. -/
structure Segment where
  base : UInt64
  limit : UInt32
  selector : UInt16
  type : UInt8
  present : UInt8
  dpl : UInt8
  db : UInt8
  s : UInt8
  l : UInt8
  g : UInt8
  avl : UInt8
  deriving DecidableEq, Repr

/-- `uint16_t index = seg->selector >> 3`. -/
def index (seg : Segment) : UInt16 := seg.selector >>> 3

/-- `uint32_t limit`: in units of the granularity. -/
def limitUnits (seg : Segment) : UInt32 := if seg.g ≠ 0 then seg.limit >>> 12 else seg.limit

/-- The word `sd`. -/
def descriptor (seg : Segment) : UInt64 :=
  (limitUnits seg &&& 0xffff).toUInt64
    ||| (seg.base &&& 0xffffff) <<< 16
    ||| seg.type.toUInt64 <<< 40
    ||| seg.s.toUInt64 <<< 44
    ||| seg.dpl.toUInt64 <<< 45
    ||| seg.present.toUInt64 <<< 47
    ||| ((limitUnits seg).toUInt64 &&& 0xf0000) <<< 48
    ||| seg.avl.toUInt64 <<< 52
    ||| seg.l.toUInt64 <<< 53
    ||| seg.db.toUInt64 <<< 54
    ||| seg.g.toUInt64 <<< 55
    ||| (seg.base &&& 0xff000000) <<< 56

/-- A descriptor table, by index. -/
abbrev Table := UInt16 → UInt64

def fill_segment_descriptor (dt : Table) (seg : Segment) : Table :=
  Function.update dt (index seg) (descriptor seg)

/-! ## The x86 layout -/

/-- A descriptor as the processor reads it. -/
structure Decoded where
  base : Nat
  limit : Nat
  type : Nat
  s : Nat
  dpl : Nat
  present : Nat
  avl : Nat
  l : Nat
  db : Nat
  g : Nat
  deriving DecidableEq, Repr

/-- The limit in bytes: scaled by 4096 and filled with ones when `g` is set. -/
def scaled (g limit : Nat) : Nat := if g = 1 then limit * 4096 + 4095 else limit

def decode (d : UInt64) : Decoded where
  base := field 16 24 d.toNat + field 56 8 d.toNat * 2 ^ 24
  limit := scaled (field 55 1 d.toNat) (field 0 16 d.toNat + field 48 4 d.toNat * 2 ^ 16)
  type := field 40 4 d.toNat
  s := field 44 1 d.toNat
  dpl := field 45 2 d.toNat
  present := field 47 1 d.toNat
  avl := field 52 1 d.toNat
  l := field 53 1 d.toNat
  db := field 54 1 d.toNat
  g := field 55 1 d.toNat

/-- The segment that was asked for. -/
def view (seg : Segment) : Decoded where
  base := seg.base.toNat
  limit := seg.limit.toNat
  type := seg.type.toNat
  s := seg.s.toNat
  dpl := seg.dpl.toNat
  present := seg.present.toNat
  avl := seg.avl.toNat
  l := seg.l.toNat
  db := seg.db.toNat
  g := seg.g.toNat

/-- The fields fit their widths in the layout. -/
structure Fits (seg : Segment) : Prop where
  base : seg.base.toNat < 2 ^ 32
  limit : seg.g.toNat = 0 → seg.limit.toNat < 2 ^ 20
  granular : seg.g.toNat = 1 → seg.limit.toNat % 4096 = 4095
  type : seg.type.toNat < 16
  s : seg.s.toNat < 2
  dpl : seg.dpl.toNat < 4
  present : seg.present.toNat < 2
  avl : seg.avl.toNat < 2
  l : seg.l.toNat < 2
  db : seg.db.toNat < 2
  g : seg.g.toNat < 2

/-! ## The word, part by part -/

/-- A part that fits below bit 64 where it is shifted to. -/
theorem toNat_shiftLeft_of_lt {a k : UInt64} {w : Nat} (hk : k.toNat < 64) (ha : a.toNat < 2 ^ w)
    (hw : w + k.toNat ≤ 64) : (a <<< k).toNat = a.toNat <<< k.toNat := by
  rw [UInt64.toNat_shiftLeft, Nat.mod_eq_of_lt hk, Nat.mod_eq_of_lt]
  rw [Nat.shiftLeft_eq]
  calc a.toNat * 2 ^ k.toNat < 2 ^ w * 2 ^ k.toNat :=
        Nat.mul_lt_mul_of_pos_right ha (Nat.two_pow_pos _)
    _ = 2 ^ (w + k.toNat) := (Nat.pow_add ..).symm
    _ ≤ 2 ^ 64 := Nat.pow_le_pow_right (by decide) hw

/-- `limit` bits 16 to 19, shifted by 48: nothing is left. -/
theorem limit_high_lost (x : UInt64) : ((x &&& 0xf0000) <<< 48).toNat = 0 := by
  rw [UInt64.toNat_shiftLeft, UInt64.toNat_and]
  exact and_mask_shiftLeft_mod (a := 16) x.toNat 0xf (by decide)

/-- `base` bits 24 to 31, shifted by 56: nothing is left. -/
theorem base_high_lost (x : UInt64) : ((x &&& 0xff000000) <<< 56).toNat = 0 := by
  rw [UInt64.toNat_shiftLeft, UInt64.toNat_and]
  exact and_mask_shiftLeft_mod (a := 24) x.toNat 0xff (by decide)

theorem limit_low (x : UInt32) : (x &&& 0xffff).toUInt64.toNat = x.toNat % 2 ^ 16 := by
  rw [UInt32.toNat_toUInt64, UInt32.toNat_and]
  exact Nat.and_two_pow_sub_one_eq_mod x.toNat 16

theorem base_low (x : UInt64) : ((x &&& 0xffffff) <<< 16).toNat = (x.toNat % 2 ^ 24) <<< 16 := by
  have hmask : (x &&& 0xffffff).toNat = x.toNat % 2 ^ 24 := by
    rw [UInt64.toNat_and]
    exact Nat.and_two_pow_sub_one_eq_mod x.toNat 24
  rw [toNat_shiftLeft_of_lt (w := 24) (by decide) (by rw [hmask]; omega) (by decide), hmask]
  rfl

theorem descriptor_toNat {seg : Segment} (h : Fits seg) :
    (descriptor seg).toNat =
      (limitUnits seg).toNat % 2 ^ 16 ||| (seg.base.toNat % 2 ^ 24) <<< 16
        ||| seg.type.toNat <<< 40 ||| seg.s.toNat <<< 44 ||| seg.dpl.toNat <<< 45
        ||| seg.present.toNat <<< 47 ||| seg.avl.toNat <<< 52 ||| seg.l.toNat <<< 53
        ||| seg.db.toNat <<< 54 ||| seg.g.toNat <<< 55 := by
  have small : ∀ {x : UInt8} {k : UInt64} {w : Nat}, x.toNat < 2 ^ w → k.toNat < 64 →
      w + k.toNat ≤ 64 → (x.toUInt64 <<< k).toNat = x.toNat <<< k.toNat := by
    intro x k w hx hk hw
    rw [toNat_shiftLeft_of_lt hk (by rw [UInt8.toNat_toUInt64]; exact hx) hw,
      UInt8.toNat_toUInt64]
  unfold descriptor
  simp only [UInt64.toNat_or, limit_low, base_low, limit_high_lost, base_high_lost, Nat.or_zero]
  rw [small (w := 4) h.type (by decide) (by decide), small (w := 1) h.s (by decide) (by decide),
    small (w := 2) h.dpl (by decide) (by decide), small (w := 1) h.present (by decide) (by decide),
    small (w := 1) h.avl (by decide) (by decide), small (w := 1) h.l (by decide) (by decide),
    small (w := 1) h.db (by decide) (by decide), small (w := 1) h.g (by decide) (by decide)]
  rfl

/-- The entry decodes to the segment, with what is left of its base and limit. -/
theorem decode_descriptor {seg : Segment} (h : Fits seg) :
    decode (descriptor seg) =
      { view seg with
        base := seg.base.toNat % 2 ^ 24
        limit := scaled seg.g.toNat ((limitUnits seg).toNat % 2 ^ 16) } := by
  have hword := descriptor_toNat h
  obtain ⟨-, -, -, ht, hs, hd, hp, ha, hl, hb, hg⟩ := h
  have hlim : (limitUnits seg).toNat % 2 ^ 16 < 2 ^ 16 := Nat.mod_lt _ (by decide)
  have hbase : seg.base.toNat % 2 ^ 24 < 2 ^ 24 := Nat.mod_lt _ (by decide)
  generalize (limitUnits seg).toNat % 2 ^ 16 = lim at *
  generalize seg.base.toNat % 2 ^ 24 = base at *
  -- the lowest part stands where it is
  rw [← Nat.shiftLeft_zero (n := lim)] at hword
  unfold decode view
  simp (disch := omega) only [hword, field_or, field_shiftLeft_self, field_shiftLeft_above,
    field_shiftLeft_below, Nat.or_zero, Nat.zero_or, Nat.zero_mul, Nat.add_zero]

/-- The parts of base and limit that the packing keeps are all there is of them. -/
def Small (seg : Segment) : Prop :=
  seg.base.toNat < 2 ^ 24 ∧ (limitUnits seg).toNat < 2 ^ 16

instance decSmall (seg : Segment) : Decidable (Small seg) :=
  inferInstanceAs (Decidable (_ ∧ _))

theorem limitUnits_toNat (seg : Segment) :
    (limitUnits seg).toNat =
      if seg.g.toNat = 0 then seg.limit.toNat else seg.limit.toNat / 4096 := by
  have hg : seg.g = 0 ↔ seg.g.toNat = 0 := by
    rw [← UInt8.toNat_inj]
    rfl
  unfold limitUnits
  by_cases h : seg.g.toNat = 0
  · rw [if_neg (not_not.mpr (hg.mpr h)), if_pos h]
  · rw [if_pos fun hx => h (hg.mp hx), if_neg h, UInt32.toNat_shiftRight]
    exact Nat.shiftRight_eq_div_pow _ 12

theorem decode_descriptor_iff {seg : Segment} (h : Fits seg) :
    decode (descriptor seg) = view seg ↔ Small seg := by
  have hlimit : scaled seg.g.toNat ((limitUnits seg).toNat % 2 ^ 16) = seg.limit.toNat ↔
      (limitUnits seg).toNat < 2 ^ 16 := by
    have hg := h.g
    have hgran := h.granular
    rw [limitUnits_toNat]
    by_cases h0 : seg.g.toNat = 0
    · rw [if_pos h0, scaled, if_neg (by omega)]
      omega
    · have h1 : seg.g.toNat = 1 := by omega
      have := hgran h1
      rw [if_neg h0, scaled, if_pos h1]
      omega
  rw [decode_descriptor h]
  unfold view Small
  simp only [Decoded.mk.injEq, and_true, hlimit]
  omega

/-! ## The table -/

/-- A sequence of calls on one table. -/
def fillAll (dt : Table) (segs : List Segment) : Table := segs.foldl fill_segment_descriptor dt

theorem fillAll_concat (dt : Table) (segs : List Segment) (seg : Segment) :
    fillAll dt (segs ++ [seg]) =
      Function.update (fillAll dt segs) (index seg) (descriptor seg) := by
  simp [fillAll, fill_segment_descriptor]

/-- Entries no call names keep their value. -/
theorem fillAll_of_ne (dt : Table) {segs : List Segment} {i : UInt16}
    (h : ∀ seg ∈ segs, index seg ≠ i) : fillAll dt segs i = dt i := by
  induction segs using List.reverseRecOn with
  | nil => rfl
  | append_singleton segs seg ih =>
      rw [fillAll_concat, Function.update_of_ne (Ne.symm (h seg (by simp)))]
      exact ih fun s hs => h s (List.mem_append_left _ hs)

/-- An entry some call names holds that call's descriptor. -/
theorem fillAll_of_mem (dt : Table) {segs : List Segment}
    (hne : segs.Pairwise fun a b => index a ≠ index b) {seg : Segment} (hmem : seg ∈ segs) :
    fillAll dt segs (index seg) = descriptor seg := by
  induction segs using List.reverseRecOn with
  | nil => nomatch hmem
  | append_singleton segs last ih =>
      obtain ⟨hsegs, -, hlast⟩ := List.pairwise_append.mp hne
      rw [fillAll_concat]
      rcases List.mem_append.mp hmem with hm | hm
      · rw [Function.update_of_ne (hlast seg hm last (by simp))]
        exact ih hsegs hm
      · obtain rfl := List.mem_singleton.mp hm
        exact Function.update_self ..

theorem segments_decode_iff (dt : Table) (segs : List Segment)
    (hne : segs.Pairwise fun a b => index a ≠ index b) (hfits : ∀ seg ∈ segs, Fits seg) :
    ((∀ seg ∈ segs, decode (fillAll dt segs (index seg)) = view seg) ∧
      ∀ i, (∀ seg ∈ segs, index seg ≠ i) → fillAll dt segs i = dt i) ↔
    ∀ seg ∈ segs, Small seg := by
  constructor
  · rintro ⟨hdec, -⟩ seg hseg
    have := hdec seg hseg
    rw [fillAll_of_mem dt hne hseg] at this
    exact (decode_descriptor_iff (hfits seg hseg)).mp this
  · intro hsmall
    refine ⟨fun seg hseg => ?_, fun i hi => fillAll_of_ne dt hi⟩
    rw [fillAll_of_mem dt hne hseg]
    exact (decode_descriptor_iff (hfits seg hseg)).mpr (hsmall seg hseg)

instance decFits (seg : Segment) : Decidable (Fits seg) :=
  decidable_of_iff
    (seg.base.toNat < 2 ^ 32 ∧ (seg.g.toNat = 0 → seg.limit.toNat < 2 ^ 20) ∧
      (seg.g.toNat = 1 → seg.limit.toNat % 4096 = 4095) ∧ seg.type.toNat < 16 ∧
      seg.s.toNat < 2 ∧ seg.dpl.toNat < 4 ∧ seg.present.toNat < 2 ∧ seg.avl.toNat < 2 ∧
      seg.l.toNat < 2 ∧ seg.db.toNat < 2 ∧ seg.g.toNat < 2)
    ⟨fun ⟨hb, hl, hgr, ht, hs, hd, hp, ha, hl', hdb, hg⟩ =>
        ⟨hb, hl, hgr, ht, hs, hd, hp, ha, hl', hdb, hg⟩,
      fun ⟨hb, hl, hgr, ht, hs, hd, hp, ha, hl', hdb, hg⟩ =>
        ⟨hb, hl, hgr, ht, hs, hd, hp, ha, hl', hdb, hg⟩⟩

/-- The two task-state segments of `test`. -/
def taskStates : List Segment :=
  [{ base := 0x500, limit := 0xff, selector := (11 : UInt16) <<< 3, type := 9, present := 1,
     dpl := 0, db := 0, s := 0, l := 0, g := 0, avl := 0 },
   { base := 0x900, limit := 0x1ff, selector := (16 : UInt16) <<< 3, type := 9, present := 1,
     dpl := 0, db := 0, s := 0, l := 0, g := 0, avl := 0 }]

theorem taskStates_decode :
    (taskStates.Pairwise fun a b => index a ≠ index b) ∧ (∀ seg ∈ taskStates, Fits seg) ∧
      ∀ seg ∈ taskStates, decode (fillAll (fun _ => 0) taskStates (index seg)) = view seg :=
  ⟨by decide, by decide,
    ((segments_decode_iff (fun _ => 0) taskStates (by decide) (by decide)).mpr (by decide)).1⟩

/-- The 16-bit code segment of `test`, with the limit `0xfffff` it asks for. -/
def seg_cs16 : Segment :=
  { base := 0, limit := 0xfffff, selector := (1 : UInt16) <<< 3, type := 11, present := 1, dpl := 0,
    db := 0, s := 1, l := 0, g := 0, avl := 0 }

theorem seg_cs16_limit_lost :
    Fits seg_cs16 ∧ (decode (fillAll (fun _ => 0) [seg_cs16] (index seg_cs16))).limit = 0xffff ∧
      (view seg_cs16).limit = 0xfffff ∧
      decode (fillAll (fun _ => 0) [seg_cs16] (index seg_cs16)) ≠ view seg_cs16 := by
  decide

end KernelLab.Kvm
