/-
# `KernelLab.RamDisk.RangeCheck` — the end-of-device checks in 64-bit arithmetic

Both drivers compare the end of a transfer with the size of the device:

    ramhd_make_request    bi_sector * 512 + bi_size > RAMHD_SIZE
    sampleblk_request     pos = blk_rq_pos * 512;  pos + size > sampleblk_dev->size

The product and the sum are 64 bits wide, and the size, positive, is the same as an
unsigned number.  So what is compared is the end of the transfer modulo `2 ^ 64`, and a
transfer passes if its end has gone round onto the device:

    sector 2^55        the product is 0: served at the start of the device
    sector 2^55 - 1    the product is 2^64 - 512: with 512 bytes the sum is 0, and the
                       copy goes to the 512 bytes before the device

## What is proved

`end_checks_exact_iff`: the check of a transfer is exact, and its copies are where they
should be, if and only if the end of the transfer, as an integer, is not within the
device size of a positive multiple of `2 ^ 64`.

The copies are listed apart from the loops that make them, by offset and length;
`segmentLoop_eq_none_iff` and `eachSegment_eq_none_iff` say that the loops come through
exactly when all of the listed copies lie inside.
-/
import KernelLab.Lib.CInt
import KernelLab.RamDisk.SampleBlk

namespace KernelLab.RamDisk.RangeCheck

open KernelLab.CInt

/-! ## The copies of a transfer -/

/-- One `memcpy`, on the side of the device. -/
structure Copy where
  off : Nat
  len : Nat

/-- One copy for each segment; `wrap` is what the type of the running position does. -/
def copies (wrap : Nat → Nat) : Nat → List Segment → List Copy
  | _, [] => []
  | p, seg :: segs => ⟨p, seg.length⟩ :: copies wrap (wrap (p + seg.length)) segs

/-- The copies of `ramhd_make_request`, by `pRHdata`. -/
def ramhdCopies {N : Nat} (bio : Bio N) : List Copy := copies id (byteOffset bio) bio.segs

/-- The copies of `sampleblk_request` for one request, by `pos`. -/
def sampleblkCopies (rq : SampleBlk.Request) : List Copy :=
  copies (· % 2 ^ 64) (rq.sector * SampleBlk.sampleblk_sect_size % 2 ^ 64) rq.segs

/-- Without going round, the copies are one behind the other. -/
theorem getElem?_copies {wrap : Nat → Nat} (before : List Segment) {seg : Segment}
    {after : List Segment} : ∀ {p : Nat}, (∀ x ≤ p + total (before ++ seg :: after), wrap x = x) →
      (copies wrap p (before ++ seg :: after))[before.length]? =
        some ⟨p + total before, seg.length⟩ := by
  induction before with
  | nil =>
      intro p _
      rfl
  | cons s before ih =>
      intro p hwrap
      rw [List.cons_append, total_cons] at hwrap
      have hp : wrap (p + s.length) = p + s.length := hwrap _ (by omega)
      rw [List.cons_append, copies, hp, List.length_cons, List.getElem?_cons_succ,
        ih fun x hx => hwrap x (by omega), total_cons, Nat.add_assoc]

theorem copies_inside {wrap : Nat → Nat} {size : Nat} {segs : List Segment} :
    ∀ {p : Nat}, (∀ x ≤ size, wrap x = x) → p + total segs ≤ size →
      ∀ c ∈ copies wrap p segs, c.off + c.len ≤ size := by
  induction segs with
  | nil =>
      intro p _ _ c hc
      cases hc
  | cons seg segs ih =>
      intro p hwrap hle c hc
      rw [total_cons] at hle
      have hp : wrap (p + seg.length) = p + seg.length := hwrap _ (by omega)
      rw [copies, hp] at hc
      rcases List.mem_cons.mp hc with rfl | hc
      · show p + seg.length ≤ size
        omega
      · exact ih hwrap (by omega) c hc

/-- The loop of `ramhd_make_request` runs into a copy that is not on the disk. -/
theorem segmentLoop_eq_none_iff {dir : Nat} (hdir : dir = READ ∨ dir = WRITE)
    (segs : List Segment) : ∀ (disk : Disk) (p : Nat),
      segmentLoop dir disk p segs = none ↔
        ∃ c ∈ copies id p segs, ¬ c.off + c.len ≤ RAMHD_SIZE := by
  induction segs with
  | nil =>
      intro disk p
      simp [segmentLoop, copies]
  | cons seg segs ih =>
      intro disk p
      rw [copies, List.exists_mem_cons_iff]
      by_cases hle : p + seg.length ≤ RAMHD_SIZE
      · rcases hdir with rfl | rfl
        · rw [segmentLoop, if_pos rfl, Region.load_of_le hle, Option.bind_some,
            Option.map_eq_none_iff, ih]
          simp [hle]
        · rw [segmentLoop, if_neg (by decide), if_pos rfl, Region.store_of_le hle,
            Option.bind_some, Option.map_eq_none_iff, ih]
          simp [hle]
      · rcases hdir with rfl | rfl
        · simp [segmentLoop, Region.load, hle]
        · simp [segmentLoop, Region.store, hle, WRITE, READ]

/-- So does the loop of `sampleblk_request`. -/
theorem eachSegment_eq_none_iff (write : Nat) (segs : List Segment) :
    ∀ (rv : Int) (data : SampleBlk.Data) (pos : Nat),
      SampleBlk.eachSegment write rv data pos segs = none ↔
        ∃ c ∈ copies (· % 2 ^ 64) pos segs, ¬ c.off + c.len ≤ SampleBlk.size := by
  induction segs with
  | nil =>
      intro rv data pos
      simp [SampleBlk.eachSegment, copies]
  | cons seg segs ih =>
      intro rv data pos
      rw [copies, List.exists_mem_cons_iff, SampleBlk.eachSegment, SampleBlk.sampleblk_handle_io]
      by_cases hle : pos + seg.length ≤ SampleBlk.size
      · by_cases hw : write ≠ 0
        · simp only [if_pos hw, Region.store_of_le hle, Option.map_some, Option.bind_some,
            lt_irrefl, if_false, Option.map_eq_none_iff, ih]
          simp [hle]
        · simp only [if_neg hw, Region.load_of_le hle, Option.map_some, Option.bind_some,
            lt_irrefl, if_false, Option.map_eq_none_iff, ih]
          simp [hle]
      · by_cases hw : write ≠ 0
        · simp [hw, Region.store, hle]
        · simp [hw, Region.load, hle]

/-- Segments do not put an error into `rv`. -/
theorem eachSegment_rv {write : Nat} {segs : List Segment} :
    ∀ {data : SampleBlk.Data} {pos : Nat} {out : Int × SampleBlk.Data × List Segment},
      SampleBlk.eachSegment write 0 data pos segs = some out → out.1 = 0 := by
  induction segs with
  | nil =>
      intro data pos out h
      cases h
      rfl
  | cons seg segs ih =>
      intro data pos out h
      rw [SampleBlk.eachSegment] at h
      obtain ⟨⟨rv, data', buffer⟩, hio, hrest⟩ := Option.bind_eq_some_iff.mp h
      have hrv : rv = 0 := by
        rw [SampleBlk.sampleblk_handle_io] at hio
        split at hio
        · obtain ⟨d, -, heq⟩ := Option.map_eq_some_iff.mp hio
          exact (congrArg Prod.fst heq).symm
        · obtain ⟨d, -, heq⟩ := Option.map_eq_some_iff.mp hio
          exact (congrArg Prod.fst heq).symm
      subst hrv
      rw [if_neg (lt_irrefl _)] at hrest
      obtain ⟨rest, hloop, rfl⟩ := Option.map_eq_some_iff.mp hrest
      exact (ih hloop : rest.1 = 0)

/-! ## What is asked of a check -/

/-- The check of a transfer of `segs` at `sector`, to a device of `size` bytes: it is let
through exactly when it ends on the device, and then the function returns, with every
copy inside the device and at the place that the sector and the segments before it give. -/
structure Exact (size sector : Nat) (segs : List Segment) (Accepted Returns : Prop)
    (cs : List Copy) : Prop where
  check : Accepted ↔ sector * RAMHD_SECTOR_SIZE + total segs ≤ size
  returns : Accepted → Returns
  inside : Accepted → ∀ c ∈ cs, c.off + c.len ≤ size
  placed : Accepted → ∀ before seg after, segs = before ++ seg :: after →
    cs[before.length]? = some ⟨sector * RAMHD_SECTOR_SIZE + total before, seg.length⟩

/-- The end of the transfer has gone round onto the device. -/
def EndWraps (size sector bytes : Nat) : Prop :=
  WrapsOnto (2 ^ 64) size (sector * RAMHD_SECTOR_SIZE + bytes)

section Mkreq

variable {N : Nat} (bio : Bio N)

/-- The bio is not turned down; a rejection does not depend on the devices. -/
def RamhdAccepts : Prop := ∃ rdev, ramhd_make_request rdev bio ≠ some (rdev, ⟨bio.segs, - EIO⟩)

def RamhdReturns : Prop := ∀ rdev, ∃ out, ramhd_make_request rdev bio = some out

def RamhdExact : Prop :=
  Exact RAMHD_SIZE bio.bi_sector bio.segs (RamhdAccepts bio) (RamhdReturns bio) (ramhdCopies bio)

end Mkreq

section Sampleblk

variable (rq : SampleBlk.Request)

/-- The request is not turned down; a rejection does not depend on the device, on `rv` and
on the requests before it. -/
def SampleblkAccepts : Prop :=
  ∃ s : SampleBlk.State, SampleBlk.step s rq ≠
    some { s with rv := - EIO, ended := s.ended ++ [⟨rq.segs, - EIO⟩] }

def SampleblkReturns : Prop := ∀ s, ∃ s', SampleBlk.step s rq = some s'

def SampleblkExact : Prop :=
  Exact SampleBlk.size rq.sector rq.segs (SampleblkAccepts rq) (SampleblkReturns rq)
    (sampleblkCopies rq)

end Sampleblk

/-! ## What passes -/

theorem ramhdAccepts_iff {N : Nat} (bio : Bio N) :
    RamhdAccepts bio ↔
      (bio.bi_sector * RAMHD_SECTOR_SIZE + bio.bi_size) % 2 ^ 64 ≤ RAMHD_SIZE := by
  have hsum : (byteOffset bio + bio.bi_size) % 2 ^ 64 =
      (bio.bi_sector * RAMHD_SECTOR_SIZE + bio.bi_size) % 2 ^ 64 := by
    rw [byteOffset, Nat.mod_add_mod]
  constructor
  · rintro ⟨rdev, hne⟩
    by_contra hgt
    apply hne
    rw [ramhd_make_request, if_pos (by omega)]
  · intro hle
    refine ⟨ramhd_init N, ?_⟩
    rw [ramhd_make_request, if_neg (by omega)]
    intro heq
    obtain ⟨out, -, hout⟩ := Option.map_eq_some_iff.mp heq
    -- what is let through is completed with 0
    have herr : (0 : Int) = - EIO := congrArg (fun out => out.2.err) hout
    exact absurd herr (by decide)

theorem sampleblkAccepts_iff (rq : SampleBlk.Request) :
    SampleblkAccepts rq ↔
      (rq.sector * RAMHD_SECTOR_SIZE + rq.bytes) % 2 ^ 64 ≤ SampleBlk.size := by
  have hsum : (rq.sector * SampleBlk.sampleblk_sect_size % 2 ^ 64 + rq.bytes) % 2 ^ 64 =
      (rq.sector * RAMHD_SECTOR_SIZE + rq.bytes) % 2 ^ 64 := Nat.mod_add_mod ..
  constructor
  · rintro ⟨s, hne⟩
    by_contra hgt
    apply hne
    simp only [SampleBlk.step]
    rw [if_pos (by omega)]
  · intro hle
    refine ⟨⟨fun _ => 0, 0, []⟩, ?_⟩
    simp only [SampleBlk.step]
    rw [if_neg (by omega)]
    intro heq
    obtain ⟨out, hloop, hout⟩ := Option.map_eq_some_iff.mp heq
    have hrv : out.1 = - EIO := congrArg SampleBlk.State.rv hout
    rw [eachSegment_rv hloop] at hrv
    exact absurd hrv (by decide)

/-! ## What the copies have to do with it -/

theorem ramhdReturns_iff {N : Nat} {bio : Bio N} (h : RamhdAccepts bio) :
    RamhdReturns bio ↔ ∀ c ∈ ramhdCopies bio, c.off + c.len ≤ RAMHD_SIZE := by
  rw [ramhdAccepts_iff, ← Nat.mod_add_mod] at h
  have hpass : ¬ (byteOffset bio + bio.bi_size) % 2 ^ 64 > RAMHD_SIZE := Nat.not_lt.mpr h
  have hnone := segmentLoop_eq_none_iff (dir_cases bio) bio.segs
  constructor
  · intro hret c hc
    by_contra hout
    obtain ⟨out, hcall⟩ := hret (ramhd_init N)
    rw [ramhd_make_request, if_neg hpass, (hnone _ _).mpr ⟨c, hc, hout⟩] at hcall
    cases hcall
  · intro hall rdev
    rw [ramhd_make_request, if_neg hpass]
    cases hloop : segmentLoop (bio_data_dir bio) (rdev bio.bi_bdev) (byteOffset bio) bio.segs with
    | none =>
        obtain ⟨c, hc, hout⟩ := (hnone _ _).mp hloop
        exact absurd (hall c hc) hout
    | some out => exact ⟨_, rfl⟩

theorem sampleblkReturns_iff {rq : SampleBlk.Request} (h : SampleblkAccepts rq) :
    SampleblkReturns rq ↔ ∀ c ∈ sampleblkCopies rq, c.off + c.len ≤ SampleBlk.size := by
  rw [sampleblkAccepts_iff, ← Nat.mod_add_mod] at h
  have hpass : ¬ (rq.sector * SampleBlk.sampleblk_sect_size % 2 ^ 64 + rq.bytes) % 2 ^ 64 >
      SampleBlk.size := Nat.not_lt.mpr h
  have hnone := eachSegment_eq_none_iff (SampleBlk.rq_data_dir rq) rq.segs
  constructor
  · intro hret c hc
    by_contra hout
    obtain ⟨s', hstep⟩ := hret ⟨fun _ => 0, 0, []⟩
    simp only [SampleBlk.step] at hstep
    rw [if_neg hpass, (hnone _ _ _).mpr ⟨c, hc, hout⟩] at hstep
    cases hstep
  · intro hall s
    simp only [SampleBlk.step]
    rw [if_neg hpass]
    cases hloop : SampleBlk.eachSegment (SampleBlk.rq_data_dir rq) s.rv s.data
        (rq.sector * SampleBlk.sampleblk_sect_size % 2 ^ 64) rq.segs with
    | none =>
        obtain ⟨c, hc, hout⟩ := (hnone _ _ _).mp hloop
        exact absurd (hall c hc) hout
    | some out => exact ⟨_, rfl⟩

/-! ## When the checks are exact -/

/-- The part the two checks have in common: they compare the remainder, and what ends on
the device does not go round anywhere. -/
theorem exact_iff {size sector : Nat} {segs : List Segment} {Accepted Returns : Prop}
    {wrap : Nat → Nat} (hsize : size < 2 ^ 64) (hwrap : ∀ x ≤ size, wrap x = x)
    (hacc : Accepted ↔ (sector * RAMHD_SECTOR_SIZE + total segs) % 2 ^ 64 ≤ size)
    (hret : Accepted → (Returns ↔
      ∀ c ∈ copies wrap (sector * RAMHD_SECTOR_SIZE % 2 ^ 64) segs, c.off + c.len ≤ size)) :
    Exact size sector segs Accepted Returns
        (copies wrap (sector * RAMHD_SECTOR_SIZE % 2 ^ 64) segs) ↔
      ¬ EndWraps size sector (total segs) := by
  rw [mod_le_iff hsize] at hacc
  constructor
  · intro h hw
    have hle := h.check.mp (hacc.mpr (.inr hw))
    exact absurd hle (Nat.not_le.mpr (hw.lt hsize))
  · intro hno
    have hcheck : Accepted ↔ sector * RAMHD_SECTOR_SIZE + total segs ≤ size :=
      hacc.trans (or_iff_left hno)
    have hin : Accepted → ∀ c ∈ copies wrap (sector * RAMHD_SECTOR_SIZE % 2 ^ 64) segs,
        c.off + c.len ≤ size := by
      intro ha
      have hle := hcheck.mp ha
      rw [Nat.mod_eq_of_lt (by omega)]
      exact copies_inside hwrap hle
    refine ⟨hcheck, fun ha => (hret ha).mpr (hin ha), hin, ?_⟩
    rintro ha before seg after rfl
    have hle := hcheck.mp ha
    rw [Nat.mod_eq_of_lt (by omega)]
    exact getElem?_copies before fun x hx => hwrap x (by omega)

theorem ramhd_check_exact_iff {N : Nat} (bio : Bio N) :
    RamhdExact bio ↔ ¬ EndWraps RAMHD_SIZE bio.bi_sector bio.bi_size := by
  have hacc := ramhdAccepts_iff bio
  rw [bio.size_eq] at hacc ⊢
  exact exact_iff (by decide) (fun _ _ => rfl) hacc ramhdReturns_iff

theorem sampleblk_check_exact_iff (rq : SampleBlk.Request) :
    SampleblkExact rq ↔ ¬ EndWraps SampleBlk.size rq.sector rq.bytes := by
  have hacc := sampleblkAccepts_iff rq
  have hsize : SampleBlk.size < 2 ^ 64 := by decide
  rw [rq.bytes_eq] at hacc ⊢
  exact exact_iff hsize (fun x hx => Nat.mod_eq_of_lt (by omega)) hacc sampleblkReturns_iff

theorem end_checks_exact_iff {N : Nat} (bio : Bio N) (rq : SampleBlk.Request) :
    (RamhdExact bio ↔ ¬ EndWraps RAMHD_SIZE bio.bi_sector bio.bi_size) ∧
    (SampleblkExact rq ↔ ¬ EndWraps SampleBlk.size rq.sector rq.bytes) :=
  ⟨ramhd_check_exact_iff bio, sampleblk_check_exact_iff rq⟩

/-! ## At the far end of the sector numbers -/

/-- The sum is 0. -/
def farWrite : Bio 2 where
  bi_bdev := Fin.last 1
  bi_rw := WRITE
  bi_sector := 2 ^ 55 - 1
  bi_size := 512
  segs := [List.replicate 512 7]
  size_eq := by rw [total_cons, List.length_replicate, total_nil]

/-- The product is 0. -/
def farRead : Bio 2 := { farWrite with bi_rw := READ, bi_sector := 2 ^ 55 }

/-- The same two for `sample_blk`. -/
def farWriteRq : SampleBlk.Request := ⟨2 ^ 55 - 1, WRITE, 512, farWrite.segs, farWrite.size_eq⟩

def farReadRq : SampleBlk.Request := ⟨2 ^ 55, READ, 512, farRead.segs, farRead.size_eq⟩

theorem copies_far (wrap : Nat → Nat) (p : Nat) : copies wrap p farWrite.segs = [⟨p, 512⟩] := by
  show [Copy.mk p (List.replicate 512 7).length] = _
  rw [List.length_replicate]

/-- The reads are served from the start of the device, the writes go in front of it. -/
theorem end_checks_wrap :
    (RamhdAccepts farRead ∧ ramhdCopies farRead = [⟨0, 512⟩] ∧ ¬ RamhdExact farRead) ∧
    (RamhdAccepts farWrite ∧ ramhdCopies farWrite = [⟨2 ^ 64 - 512, 512⟩] ∧
      ¬ RamhdReturns farWrite ∧ ¬ RamhdExact farWrite) ∧
    (SampleblkAccepts farReadRq ∧ sampleblkCopies farReadRq = [⟨0, 512⟩] ∧
      ¬ SampleblkExact farReadRq) ∧
    (SampleblkAccepts farWriteRq ∧ sampleblkCopies farWriteRq = [⟨2 ^ 64 - 512, 512⟩] ∧
      ¬ SampleblkReturns farWriteRq ∧ ¬ SampleblkExact farWriteRq) := by
  have hread : RamhdAccepts farRead := (ramhdAccepts_iff _).mpr (by decide)
  have hwrite : RamhdAccepts farWrite := (ramhdAccepts_iff _).mpr (by decide)
  have hreadRq : SampleblkAccepts farReadRq := (sampleblkAccepts_iff _).mpr (by decide)
  have hwriteRq : SampleblkAccepts farWriteRq := (sampleblkAccepts_iff _).mpr (by decide)
  have hcopies : ramhdCopies farWrite = [⟨2 ^ 64 - 512, 512⟩] := copies_far _ _
  have hcopiesRq : sampleblkCopies farWriteRq = [⟨2 ^ 64 - 512, 512⟩] := copies_far _ _
  refine ⟨⟨hread, copies_far _ _, ?_⟩, ⟨hwrite, hcopies, ?_, ?_⟩,
    ⟨hreadRq, copies_far _ _, ?_⟩, ⟨hwriteRq, hcopiesRq, ?_, ?_⟩⟩
  · exact fun h => absurd (h.check.mp hread) (by rw [← farRead.size_eq]; decide)
  · rw [ramhdReturns_iff hwrite, hcopies]
    intro hall
    exact absurd (hall _ List.mem_cons_self) (by decide)
  · exact fun h => absurd (h.check.mp hwrite) (by rw [← farWrite.size_eq]; decide)
  · exact fun h => absurd (h.check.mp hreadRq) (by rw [← farReadRq.bytes_eq]; decide)
  · rw [sampleblkReturns_iff hwriteRq, hcopiesRq]
    intro hall
    exact absurd (hall _ List.mem_cons_self) (by decide)
  · exact fun h => absurd (h.check.mp hwriteRq) (by rw [← farWriteRq.bytes_eq]; decide)

end KernelLab.RamDisk.RangeCheck
