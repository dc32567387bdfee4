/-
# `KernelLab.RamDisk.MakeRequest` — the bio driver `ramhd_mkreq.c`

A bio names a device, a direction, a start sector and a list of segments.
`ramhd_make_request` checks the range once and then walks the segments with a
pointer into the device's memory that it advances by `bv_len`:

    if (bi_sector * 512 + bi_size > RAMHD_SIZE)  →  -EIO
    pRHdata = data + bi_sector * 512
    for each segment:  memcpy one way or the other;  pRHdata += bv_len

A segment is kept as the bytes of the buffer its `bio_vec` describes, so `bv_len`
is its length.  Memory is checked: an access that leaves the device's block makes
the whole call `none`, which is a claim about the code wherever a theorem says
`some`.

## What is proved

The driver implements independent flat byte disks (`ramhd_flat_disks`).  For
every sequence of bios on any number of devices, in front of every bio the
memory of each device is, byte by byte, the latest write the earlier bios made
there, zero where there was none; and the bio is served against that memory:

    in range, write    the bytes of its range become the segments' bytes, in order
    in range, read     the segments become the bytes of its range, in order
    out of range       -EIO, nothing changes
    always             other devices, and bytes out of the range, do not change

The steps are `segmentLoop_read` and `segmentLoop_write`, the loop against the
range as a whole, by induction over the segments; `make_request_spec`, one bio;
and the induction over the run.
-/
import KernelLab.Lib.Run
import KernelLab.Lib.Region

namespace KernelLab.RamDisk

open KernelLab.Run

def RAMHD_SECTOR_SIZE : Nat := 512
def RAMHD_SECTORS : Nat := 16
def RAMHD_HEADS : Nat := 4
def RAMHD_CYLINDERS : Nat := 256
def RAMHD_SECTOR_TOTAL : Nat := RAMHD_SECTORS * RAMHD_HEADS * RAMHD_CYLINDERS
def RAMHD_SIZE : Nat := RAMHD_SECTOR_SIZE * RAMHD_SECTOR_TOTAL

/-- The directions `bio_data_dir` and `rq_data_dir` tell apart. -/
def READ : Nat := 0
def WRITE : Nat := 1

def EIO : Int := 5

/-- The memory of one device, `sdisk[i]`. -/
abbrev Disk := Region UInt8 RAMHD_SIZE

/-- The bytes of one segment's buffer. -/
abbrev Segment := List UInt8

/-- The number of bytes a list of segments transfers. -/
def total (segs : List Segment) : Nat := (segs.map List.length).sum

@[simp] theorem total_nil : total [] = 0 := rfl

@[simp] theorem total_cons (seg : Segment) (segs : List Segment) :
    total (seg :: segs) = seg.length + total segs := by
  simp [total]

theorem total_append (as bs : List Segment) : total (as ++ bs) = total as + total bs := by
  simp [total]

/-- The devices `rdev[0], …, rdev[N - 1]`, by their `data`. -/
abbrev Devices (N : Nat) := Fin N → Disk

/-- A transfer as the block layer hands it over: `bi_size` is the sum of the
segments' lengths. -/
structure Bio (N : Nat) where
  /-- the device behind `bi_bdev->bd_disk->private_data` -/
  bi_bdev : Fin N
  bi_rw : Nat
  bi_sector : Nat
  bi_size : Nat
  segs : List Segment
  size_eq : bi_size = total segs

variable {N : Nat}

/-- The direction is the low bit of `bi_rw`. -/
def bio_data_dir (bio : Bio N) : Nat := bio.bi_rw % 2

/-- What `bio_endio` reports, and the buffers at that moment. -/
structure Completion where
  segs : List Segment
  err : Int

/-! ## The driver -/

/-- `ramhd_space_init` and `ramhd_init`: every device's memory is zeroed. -/
def ramhd_init (N : Nat) : Devices N := fun _ _ => 0

/-- The loop over the segments, with `pRHdata` as an offset into the disk. -/
def segmentLoop (dir : Nat) : Disk → Nat → List Segment → Option (Disk × List Segment)
  | disk, _, [] => some (disk, [])
  | disk, pRHdata, seg :: segs =>
      if dir = READ then
        (disk.load pRHdata seg.length).bind fun bytes =>
          (segmentLoop dir disk (pRHdata + seg.length) segs).map fun out =>
            (out.1, bytes :: out.2)
      else if dir = WRITE then
        (disk.store pRHdata seg).bind fun disk' =>
          (segmentLoop dir disk' (pRHdata + seg.length) segs).map fun out =>
            (out.1, seg :: out.2)
      else
        -- `default: goto out`
        some (disk, seg :: segs)

/-- The byte offset of a bio, as the 64-bit product the source computes. -/
def byteOffset (bio : Bio N) : Nat := bio.bi_sector * RAMHD_SECTOR_SIZE % 2 ^ 64

def ramhd_make_request (rdev : Devices N) (bio : Bio N) : Option (Devices N × Completion) :=
  if (byteOffset bio + bio.bi_size) % 2 ^ 64 > RAMHD_SIZE then
    some (rdev, ⟨bio.segs, - EIO⟩)
  else
    (segmentLoop (bio_data_dir bio) (rdev bio.bi_bdev) (byteOffset bio) bio.segs).map fun out =>
      (Function.update rdev bio.bi_bdev out.1, ⟨out.2, 0⟩)

/-! ## The loop against the range as a whole -/

/-- The buffers a read from offset `p` on leaves, segment by segment. -/
def filled (disk : Disk) : Nat → List Segment → List Segment
  | _, [] => []
  | p, seg :: segs => disk.slice p seg.length :: filled disk (p + seg.length) segs

theorem filled_concat (disk : Disk) (p : Nat) (segs : List Segment) (seg : Segment) :
    filled disk p (segs ++ [seg]) =
      filled disk p segs ++ [disk.slice (p + total segs) seg.length] := by
  induction segs generalizing p with
  | nil => rfl
  | cons s segs ih => simp only [List.cons_append, filled, ih, total_cons, Nat.add_assoc]

theorem flatten_filled (disk : Disk) (p : Nat) (segs : List Segment) :
    (filled disk p segs).flatten = disk.slice p (total segs) := by
  induction segs generalizing p with
  | nil => rfl
  | cons seg segs ih =>
      simp only [filled, List.flatten_cons, ih, total_cons]
      exact (disk.slice_add p seg.length (total segs)).symm

theorem map_length_filled (disk : Disk) {p : Nat} {segs : List Segment}
    (h : p + total segs ≤ RAMHD_SIZE) :
    (filled disk p segs).map List.length = segs.map List.length := by
  induction segs generalizing p with
  | nil => rfl
  | cons seg segs ih =>
      rw [total_cons] at h
      simp only [filled, List.map_cons]
      rw [Region.length_slice disk (by omega), ih (by omega)]

theorem segmentLoop_read (disk : Disk) {p : Nat} {segs : List Segment}
    (h : p + total segs ≤ RAMHD_SIZE) :
    segmentLoop READ disk p segs = some (disk, filled disk p segs) := by
  induction segs generalizing p with
  | nil => rfl
  | cons seg segs ih =>
      rw [total_cons] at h
      simp only [segmentLoop, if_true]
      rw [Region.load_of_le (by omega), ih (by omega)]
      rfl

theorem segmentLoop_write (disk : Disk) {p : Nat} {segs : List Segment}
    (h : p + total segs ≤ RAMHD_SIZE) :
    segmentLoop WRITE disk p segs = some (disk.splice p segs.flatten, segs) := by
  induction segs generalizing disk p with
  | nil => simp [segmentLoop]
  | cons seg segs ih =>
      rw [total_cons] at h
      have hw := ih (disk.splice p seg) (p := p + seg.length) (by omega)
      rw [Region.splice_append] at hw
      unfold segmentLoop
      rw [if_neg (by decide), if_pos rfl, Region.store_of_le (by omega), Option.bind_some, hw]
      rfl

/-! ## One bio -/

/-- The bio's range lies on the device. -/
def InRange (bio : Bio N) : Prop :=
  bio.bi_sector * RAMHD_SECTOR_SIZE + bio.bi_size ≤ RAMHD_SIZE

instance decInRange (bio : Bio N) : Decidable (InRange bio) :=
  inferInstanceAs (Decidable (_ ≤ _))

/-- The end of the range is a 64-bit number. -/
def Fits (bio : Bio N) : Prop :=
  bio.bi_sector * RAMHD_SECTOR_SIZE + bio.bi_size < 2 ^ 64

instance decFits (bio : Bio N) : Decidable (Fits bio) :=
  inferInstanceAs (Decidable (_ < _))

/-- What one bio does to independent flat byte disks.  `rdev` is the memory of
the devices before it and `rdev'` behind it, `c` its completion. -/
structure Serves (rdev : Devices N) (bio : Bio N) (rdev' : Devices N) (c : Completion) : Prop where
  rejected : ¬ InRange bio → c.err = - EIO ∧ c.segs = bio.segs ∧ rdev' = rdev
  accepted : InRange bio → c.err = 0
  /-- a write leaves its buffers alone and replaces its range -/
  written : InRange bio → bio_data_dir bio = WRITE → c.segs = bio.segs ∧
    ∀ k (i : Fin RAMHD_SIZE), k < bio.bi_size → i = bio.bi_sector * RAMHD_SECTOR_SIZE + k →
      bio.segs.flatten[k]? = some (rdev' bio.bi_bdev i)
  /-- a read leaves the disk alone and fills its segments in order -/
  filled : InRange bio → bio_data_dir bio = READ → rdev' = rdev ∧
    c.segs.map List.length = bio.segs.map List.length ∧
    ∀ k (i : Fin RAMHD_SIZE), k < bio.bi_size → i = bio.bi_sector * RAMHD_SECTOR_SIZE + k →
      c.segs.flatten[k]? = some (rdev bio.bi_bdev i)
  /-- bytes out of the range keep their value -/
  outside : ∀ i : Fin RAMHD_SIZE,
    ((i : Nat) < bio.bi_sector * RAMHD_SECTOR_SIZE ∨
      bio.bi_sector * RAMHD_SECTOR_SIZE + bio.bi_size ≤ i) →
    rdev' bio.bi_bdev i = rdev bio.bi_bdev i
  others : ∀ j, j ≠ bio.bi_bdev → rdev' j = rdev j

theorem InRange.total_le {bio : Bio N} (h : InRange bio) :
    bio.bi_sector * RAMHD_SECTOR_SIZE + total bio.segs ≤ RAMHD_SIZE := by
  rw [← bio.size_eq]
  exact h

theorem dir_cases (bio : Bio N) : bio_data_dir bio = READ ∨ bio_data_dir bio = WRITE := by
  unfold bio_data_dir READ WRITE
  omega

theorem length_flatten_segs (bio : Bio N) : bio.segs.flatten.length = bio.bi_size := by
  rw [bio.size_eq, List.length_flatten, total]

theorem byteOffset_eq {bio : Bio N} (hf : Fits bio) :
    byteOffset bio = bio.bi_sector * RAMHD_SECTOR_SIZE := by
  unfold Fits at hf
  exact Nat.mod_eq_of_lt (by omega)

theorem InRange.fits {bio : Bio N} (h : InRange bio) : Fits bio :=
  Nat.lt_of_le_of_lt h (by decide)

/-- A bio in range passes the check and is walked through. -/
theorem make_request_inRange (rdev : Devices N) {bio : Bio N} (h : InRange bio) :
    ramhd_make_request rdev bio =
      (segmentLoop (bio_data_dir bio) (rdev bio.bi_bdev) (byteOffset bio) bio.segs).map fun out =>
        (Function.update rdev bio.bi_bdev out.1, ⟨out.2, 0⟩) := by
  unfold ramhd_make_request
  rw [byteOffset_eq h.fits, Nat.mod_eq_of_lt h.fits]
  exact if_neg (Nat.not_lt.mpr h)

theorem segmentLoop_inRange (disk : Disk) {bio : Bio N} (h : InRange bio) :
    ∃ out, segmentLoop (bio_data_dir bio) disk (byteOffset bio) bio.segs = some out := by
  rw [byteOffset_eq h.fits]
  rcases dir_cases bio with hd | hd
  · exact ⟨_, by rw [hd, segmentLoop_read _ h.total_le]⟩
  · exact ⟨_, by rw [hd, segmentLoop_write _ h.total_le]⟩

/-- The call, with the checks and the pointer resolved: the source's arithmetic
is exact on a bio whose range ends below `2 ^ 64`. -/
theorem make_request_spec (rdev : Devices N) {bio : Bio N} (hf : Fits bio) :
    ramhd_make_request rdev bio =
      if InRange bio then
        if bio_data_dir bio = WRITE then
          some (Function.update rdev bio.bi_bdev ((rdev bio.bi_bdev).splice
            (bio.bi_sector * RAMHD_SECTOR_SIZE) bio.segs.flatten), ⟨bio.segs, 0⟩)
        else
          some (rdev, ⟨filled (rdev bio.bi_bdev) (bio.bi_sector * RAMHD_SECTOR_SIZE) bio.segs, 0⟩)
      else some (rdev, ⟨bio.segs, - EIO⟩) := by
  by_cases hr : InRange bio
  · rw [make_request_inRange rdev hr, byteOffset_eq hf, if_pos hr]
    rcases dir_cases bio with hd | hd
    · rw [hd, segmentLoop_read _ hr.total_le]
      simp [READ, WRITE]
    · rw [hd, segmentLoop_write _ hr.total_le]
      simp
  · unfold ramhd_make_request
    rw [byteOffset_eq hf, Nat.mod_eq_of_lt hf, if_pos (Nat.lt_of_not_le hr), if_neg hr]

theorem serves_read (rdev : Devices N) {bio : Bio N} (hr : InRange bio)
    (hd : bio_data_dir bio = READ) :
    Serves rdev bio rdev
      ⟨filled (rdev bio.bi_bdev) (bio.bi_sector * RAMHD_SECTOR_SIZE) bio.segs, 0⟩ where
  rejected h := absurd hr h
  accepted _ := rfl
  written _ h := by
    rw [hd] at h
    exact absurd h (by decide)
  filled := by
    intro _ _
    refine ⟨rfl, map_length_filled _ hr.total_le, ?_⟩
    rintro k i hk hi
    have hi' : (⟨bio.bi_sector * RAMHD_SECTOR_SIZE + k, hi ▸ i.isLt⟩ : Fin RAMHD_SIZE) = i :=
      Fin.ext hi.symm
    rw [flatten_filled, Region.getElem?_slice _ hr.total_le
      (by rw [← bio.size_eq]; exact hk), hi']
  outside _ _ := rfl
  others _ _ := rfl

theorem serves_write (rdev : Devices N) {bio : Bio N} (hr : InRange bio)
    (hd : bio_data_dir bio = WRITE) :
    Serves rdev bio (Function.update rdev bio.bi_bdev ((rdev bio.bi_bdev).splice
      (bio.bi_sector * RAMHD_SECTOR_SIZE) bio.segs.flatten)) ⟨bio.segs, 0⟩ where
  rejected h := absurd hr h
  accepted _ := rfl
  written := by
    intro _ _
    refine ⟨rfl, ?_⟩
    rintro k i hk hi
    have hk' : k < bio.segs.flatten.length := by rw [length_flatten_segs]; exact hk
    have hi' : i = ⟨bio.bi_sector * RAMHD_SECTOR_SIZE + k, hi ▸ i.isLt⟩ := Fin.ext hi
    rw [Function.update_self, hi', Region.splice_inside _ hk', List.getElem?_eq_getElem hk']
  filled _ h := by
    rw [hd] at h
    exact absurd h (by decide)
  outside := by
    intro i hi
    rw [Function.update_self]
    exact Region.splice_outside _ (by rw [length_flatten_segs]; exact hi)
  others j hj := Function.update_of_ne hj _ _

theorem serves_reject (rdev : Devices N) {bio : Bio N} (hr : ¬ InRange bio) :
    Serves rdev bio rdev ⟨bio.segs, - EIO⟩ where
  rejected _ := ⟨rfl, rfl, rfl⟩
  accepted h := absurd h hr
  written h := absurd h hr
  filled h := absurd h hr
  outside _ _ := rfl
  others _ _ := rfl

theorem make_request_serves (rdev : Devices N) {bio : Bio N} (hf : Fits bio) :
    ∃ rdev' c, ramhd_make_request rdev bio = some (rdev', c) ∧ Serves rdev bio rdev' c := by
  rw [make_request_spec rdev hf]
  by_cases hr : InRange bio
  · rw [if_pos hr]
    rcases dir_cases bio with hd | hd
    · have hnw : bio_data_dir bio ≠ WRITE := by rw [hd]; decide
      rw [if_neg hnw]
      exact ⟨_, _, rfl, serves_read rdev hr hd⟩
    · rw [if_pos hd]
      exact ⟨_, _, rfl, serves_write rdev hr hd⟩
  · rw [if_neg hr]
    exact ⟨_, _, rfl, serves_reject rdev hr⟩

/-! ## Runs

The state of a run is the memory of the devices and the completions so far. -/

def step (s : Devices N × List Completion) (bio : Bio N) : Option (Devices N × List Completion) :=
  (ramhd_make_request s.1 bio).map fun out => (out.1, s.2 ++ [out.2])

/-- The write a bio makes, if it makes one. -/
def writeOf (bio : Bio N) : Option (Region.Write UInt8) :=
  if InRange bio ∧ bio_data_dir bio = WRITE then
    some ⟨bio.bi_sector * RAMHD_SECTOR_SIZE, bio.segs.flatten⟩
  else none

/-- The writes a list of bios makes to the device `j`, in order. -/
def writesTo (j : Fin N) (bios : List (Bio N)) : List (Region.Write UInt8) :=
  bios.filterMap fun bio => if bio.bi_bdev = j then writeOf bio else none

/-- The flat disks: a byte is what the latest write to it put there, and zero if
there was none. -/
def flat (bios : List (Bio N)) : Devices N :=
  fun j i => (Region.latest (writesTo j bios) i).getD 0

theorem flat_eq_replay (bios : List (Bio N)) (j : Fin N) :
    flat bios j = (ramhd_init N j).replay (writesTo j bios) := by
  funext i
  exact (Region.replay_apply (ramhd_init N j) (writesTo j bios) i).symm

theorem writesTo_concat (j : Fin N) (bios : List (Bio N)) (bio : Bio N) :
    writesTo j (bios ++ [bio]) =
      writesTo j bios ++ (if bio.bi_bdev = j then writeOf bio else none).toList := by
  simp only [writesTo, List.filterMap_append, List.filterMap_cons, List.filterMap_nil]
  cases (if bio.bi_bdev = j then writeOf bio else none) <;> rfl

/-- A bio that writes nothing leaves the flat disks as they were. -/
theorem flat_concat_none (bios : List (Bio N)) {bio : Bio N} (h : writeOf bio = none) :
    flat (bios ++ [bio]) = flat bios := by
  funext j
  simp [flat_eq_replay, writesTo_concat, h]

theorem flat_concat_some (bios : List (Bio N)) {bio : Bio N} {w : Region.Write UInt8}
    (h : writeOf bio = some w) :
    flat (bios ++ [bio]) =
      Function.update (flat bios) bio.bi_bdev ((flat bios bio.bi_bdev).splice w.off w.data) := by
  funext j
  by_cases hj : j = bio.bi_bdev
  · subst hj
    rw [Function.update_self, flat_eq_replay, flat_eq_replay, writesTo_concat, if_pos rfl, h]
    exact Region.replay_concat _ _ _
  · rw [Function.update_of_ne hj, flat_eq_replay, flat_eq_replay, writesTo_concat,
      if_neg (Ne.symm hj)]
    simp

/-- The driver carries the flat disks of the bios so far to those with one more. -/
theorem make_request_flat (bios : List (Bio N)) {bio : Bio N} (hf : Fits bio) :
    ∃ c, ramhd_make_request (flat bios) bio = some (flat (bios ++ [bio]), c) ∧
      Serves (flat bios) bio (flat (bios ++ [bio])) c := by
  obtain ⟨rdev', c, hcall, hserves⟩ := make_request_serves (flat bios) hf
  have hmem : rdev' = flat (bios ++ [bio]) := by
    rw [make_request_spec _ hf] at hcall
    by_cases hr : InRange bio
    · by_cases hd : bio_data_dir bio = WRITE
      · rw [if_pos hr, if_pos hd] at hcall
        rw [flat_concat_some bios (w := ⟨bio.bi_sector * RAMHD_SECTOR_SIZE, bio.segs.flatten⟩)
          (if_pos ⟨hr, hd⟩)]
        exact (congrArg Prod.fst (Option.some.inj hcall)).symm
      · rw [if_pos hr, if_neg hd] at hcall
        rw [flat_concat_none bios (if_neg fun h => hd h.2)]
        exact (congrArg Prod.fst (Option.some.inj hcall)).symm
    · rw [if_neg hr] at hcall
      rw [flat_concat_none bios (if_neg fun h => hr h.1)]
      exact (congrArg Prod.fst (Option.some.inj hcall)).symm
  subst hmem
  exact ⟨c, hcall, hserves⟩

theorem ramhd_flat_disks (bios : List (Bio N)) (hfits : ∀ bio ∈ bios, Fits bio) :
    ∃ log : List Completion, exec step (ramhd_init N, []) bios = some (flat bios, log) ∧
      log.length = bios.length ∧
      ∀ before bio after, bios = before ++ bio :: after → ∃ c, log[before.length]? = some c ∧
        Serves (flat before) bio (flat (before ++ [bio])) c := by
  -- from the right: the last bio is served, the earlier ones were
  induction bios using List.reverseRecOn with
  | nil => exact ⟨[], rfl, rfl, by simp⟩
  | append_singleton bios bio ih =>
      obtain ⟨log, hrun, hlen, hall⟩ := ih fun b hb => hfits b (List.mem_append_left _ hb)
      obtain ⟨c, hcall, hserves⟩ := make_request_flat bios (hfits bio (by simp))
      refine ⟨log ++ [c], ?_, by simp [hlen], ?_⟩
      · rw [exec_concat, hrun]
        simp [step, hcall]
      · intro before b after hsplit
        rcases split_concat hsplit with ⟨rfl, rfl, rfl⟩ | ⟨after', rfl, hb⟩
        · exact ⟨c, by simp [← hlen], hserves⟩
        · obtain ⟨c', hc', hs'⟩ := hall before b after' hb
          have hlt : before.length < log.length := by rw [hlen, hb]; simp
          exact ⟨c', by rw [List.getElem?_append_left hlt]; exact hc', hs'⟩

/-- A write of two segments, a read of the same bytes cut differently, and a read
across the end of the disk. -/
def writeReadBeyond : List (Bio 2) :=
  [⟨1, WRITE, 3, 3, [[10, 11], [12]], rfl⟩,
   ⟨1, READ, 3, 3, [[0], [0, 0]], rfl⟩,
   ⟨0, READ, RAMHD_SECTOR_TOTAL, 1, [[7]], rfl⟩]

theorem flat_disks_writeReadBeyond :
    (∀ bio ∈ writeReadBeyond, Fits bio) ∧
      ∃ log : List Completion,
        exec step (ramhd_init 2, []) writeReadBeyond = some (flat writeReadBeyond, log) ∧
        log.length = writeReadBeyond.length ∧
        ∀ before bio after, writeReadBeyond = before ++ bio :: after →
          ∃ c, log[before.length]? = some c ∧
            Serves (flat before) bio (flat (before ++ [bio])) c :=
  ⟨by decide, ramhd_flat_disks writeReadBeyond (by decide)⟩

end KernelLab.RamDisk
