/-
# `KernelLab.RamDisk.RequestFunc` — the request driver `ramhd_req.c`

The same disk behind the request queue.  `ramhd_req_func` keeps no pointer: at
every turn of its loop it asks the block layer for the sector cursor of the
request, computes the address from it and copies the current segment:

    while (req)
      addr = data + blk_rq_pos(req) * 512
      memcpy blk_rq_cur_bytes(req) bytes between addr and req->buffer
      if (!__blk_end_request_cur(req, 0))  req = blk_fetch_request(q)

The block layer is not part of the driver.  What is assumed of it is written as
the functions the driver calls: `blk_end_request_cur` completes the current
segment, advances the cursor by the completed bytes shifted right by nine, and
says whether a segment is left.

## Against the bio driver

The cursor moves in whole sectors, `pRHdata` of `ramhd_make_request` in bytes.
`drivers_agree_iff`: for a start sector and a list of segment lengths, the two
drivers do the same to every disk, in both directions, exactly when every length
is a multiple of the sector size.  A shorter segment leaves the cursor behind by
the remainder, and the next copy starts there; `short_segment_rereads` is such a
transfer.

One direction is a simulation, the two loops step by step with the cursor at
`pRHdata / 512`.  The other reads a disk that is zero but for one byte, at the
place where the bio driver begins the segment in question.

## The range of a copy

`memcpy` is the range of the disk that an iteration is about: it is left in the
middle exactly when the range leaves the disk (`body_exit_iff`), it changes no byte
outside the range (`body_frame`), and no byte outside it matters (`body_congr`).
-/
import KernelLab.Lib.Loop
import KernelLab.RamDisk.MakeRequest

namespace KernelLab.RamDisk.RequestFunc

open KernelLab.Loop

variable {N : Nat}

/-! ## The block layer's side -/

/-- A request: the segments still to be served, the current one first, and those
completed. -/
structure Request (N : Nat) where
  /-- the device behind `rq_disk->private_data` -/
  rq_disk : Fin N
  cmd_flags : Nat
  pos : Nat
  segs : List Segment
  completed : List Segment

def blk_rq_pos (req : Request N) : Nat := req.pos

/-- `req->buffer`: the buffer of the current segment. -/
def buffer (req : Request N) : Segment := req.segs.headD []

def blk_rq_cur_bytes (req : Request N) : Nat := (buffer req).length

def rq_data_dir (req : Request N) : Nat := req.cmd_flags % 2

/-- Completes the current segment; the answer is whether another one is left. -/
def blk_end_request_cur (req : Request N) : Request N × Bool :=
  match req.segs with
  | [] => (req, false)
  | seg :: segs =>
      ({ req with
          pos := req.pos + seg.length >>> 9
          segs := segs
          completed := req.completed ++ [seg] }, !segs.isEmpty)

/-- The current segment's buffer, overwritten. -/
def setBuffer (req : Request N) (bytes : Segment) : Request N :=
  match req.segs with
  | [] => req
  | _ :: segs => { req with segs := bytes :: segs }

/-! ## The driver -/

structure State (N : Nat) where
  rdev : Devices N
  req : Option (Request N)
  queue : List (Request N)
  ended : List (Request N)

/-- `blk_fetch_request`: the next request, taken off the queue. -/
def blk_fetch_request (s : State N) : State N :=
  { s with req := s.queue.head?, queue := s.queue.tail }

/-- The end of an iteration, behind the `memcpy`. -/
def endCur (s : State N) (req : Request N) : State N :=
  let out := blk_end_request_cur req
  if out.2 then { s with req := some out.1 }
  else blk_fetch_request { s with ended := s.ended ++ [out.1] }

/-- One iteration.  The loop is left with the devices and the requests it ended,
or with `none` when a copy leaves the disk. -/
def body (s : State N) : Step (State N) (Option (Devices N × List (Request N))) :=
  match s.req with
  | none => .exit (some (s.rdev, s.ended))
  | some req =>
      let addr := blk_rq_pos req * RAMHD_SECTOR_SIZE % 2 ^ 64
      let size := blk_rq_cur_bytes req
      if rq_data_dir req = READ then
        match (s.rdev req.rq_disk).load addr size with
        | none => .exit none
        | some bytes => .next (endCur s (setBuffer req bytes))
      else
        match (s.rdev req.rq_disk).store addr (buffer req) with
        | none => .exit none
        | some disk =>
            .next (endCur { s with rdev := Function.update s.rdev req.rq_disk disk } req)

/-- `ramhd_req_func`, as the result it ends with. -/
def ramhd_req_func (rdev : Devices N) (queue : List (Request N))
    (out : Option (Devices N × List (Request N))) : Prop :=
  Ends body (blk_fetch_request ⟨rdev, none, queue, []⟩) out

/-! ## One request, segment by segment -/

/-- The copies of one request, with the sector cursor the block layer keeps. -/
def serve (dir : Nat) : Disk → Nat → List Segment → Option (Disk × List Segment)
  | disk, _, [] => some (disk, [])
  | disk, pos, seg :: segs =>
      if dir = READ then
        (disk.load (pos * RAMHD_SECTOR_SIZE % 2 ^ 64) seg.length).bind fun bytes =>
          (serve dir disk (pos + bytes.length >>> 9) segs).map fun out => (out.1, bytes :: out.2)
      else
        (disk.store (pos * RAMHD_SECTOR_SIZE % 2 ^ 64) seg).bind fun disk' =>
          (serve dir disk' (pos + seg.length >>> 9) segs).map fun out => (out.1, seg :: out.2)

theorem body_read (s : State N) (req : Request N) {bytes : Segment} (hs : s.req = some req)
    (hd : rq_data_dir req = READ)
    (hl : (s.rdev req.rq_disk).load (blk_rq_pos req * RAMHD_SECTOR_SIZE % 2 ^ 64)
      (blk_rq_cur_bytes req) = some bytes) :
    body s = .next (endCur s (setBuffer req bytes)) := by
  simp only [body, hs, if_pos hd, hl]

theorem body_write (s : State N) (req : Request N) {disk : Disk} (hs : s.req = some req)
    (hd : rq_data_dir req ≠ READ)
    (hl : (s.rdev req.rq_disk).store (blk_rq_pos req * RAMHD_SECTOR_SIZE % 2 ^ 64)
      (buffer req) = some disk) :
    body s = .next (endCur { s with rdev := Function.update s.rdev req.rq_disk disk } req) := by
  simp only [body, hs, if_neg hd, hl]

theorem serve_read_cons {disk disk' : Disk} {pos : Nat} {seg : Segment} {segs segs' : List Segment}
    (h : serve READ disk pos (seg :: segs) = some (disk', segs')) :
    ∃ bytes out, disk.load (pos * RAMHD_SECTOR_SIZE % 2 ^ 64) seg.length = some bytes ∧
      bytes.length = seg.length ∧ segs' = bytes :: out ∧
      serve READ disk (pos + seg.length >>> 9) segs = some (disk', out) := by
  rw [serve, if_pos rfl] at h
  obtain ⟨bytes, hload, hrest⟩ := Option.bind_eq_some_iff.mp h
  obtain ⟨⟨disk₁, out⟩, htail, heq⟩ := Option.map_eq_some_iff.mp hrest
  obtain ⟨rfl, rfl⟩ := Prod.mk.inj heq
  have hlen : bytes.length = seg.length := Region.length_of_load hload
  rw [hlen] at htail
  exact ⟨bytes, out, hload, hlen, rfl, htail⟩

theorem serve_write_cons {dir : Nat} (hd : dir ≠ READ) {disk disk' : Disk} {pos : Nat}
    {seg : Segment} {segs segs' : List Segment}
    (h : serve dir disk pos (seg :: segs) = some (disk', segs')) :
    ∃ disk₁ out, disk.store (pos * RAMHD_SECTOR_SIZE % 2 ^ 64) seg = some disk₁ ∧
      segs' = seg :: out ∧ serve dir disk₁ (pos + seg.length >>> 9) segs = some (disk', out) := by
  rw [serve, if_neg hd] at h
  obtain ⟨disk₁, hstore, hrest⟩ := Option.bind_eq_some_iff.mp h
  obtain ⟨⟨disk₂, out⟩, htail, heq⟩ := Option.map_eq_some_iff.mp hrest
  obtain ⟨rfl, rfl⟩ := Prod.mk.inj heq
  exact ⟨disk₁, out, hstore, rfl, htail⟩

/-- One iteration on a request with a segment: the segment is completed, and `serve`
says with what. -/
theorem body_of_serve {dev : Fin N} {flags pos : Nat} {rdev : Devices N} {seg : Segment}
    {segs segs' : List Segment} {disk' : Disk} (completed : List Segment)
    (queue ended : List (Request N))
    (hserve : serve (flags % 2) (rdev dev) pos (seg :: segs) = some (disk', segs')) :
    ∃ disk₁ bytes out, segs' = bytes :: out ∧ bytes.length = seg.length ∧
      serve (flags % 2) disk₁ (pos + seg.length >>> 9) segs = some (disk', out) ∧
      body ⟨rdev, some ⟨dev, flags, pos, seg :: segs, completed⟩, queue, ended⟩ =
        .next (endCur ⟨Function.update rdev dev disk₁,
          some ⟨dev, flags, pos, seg :: segs, completed⟩, queue, ended⟩
          ⟨dev, flags, pos, bytes :: segs, completed⟩) := by
  by_cases hd : flags % 2 = READ
  · rw [hd] at hserve
    obtain ⟨bytes, out, hload, hlen, rfl, htail⟩ := serve_read_cons hserve
    refine ⟨rdev dev, bytes, out, rfl, hlen, hd ▸ htail, ?_⟩
    rw [Function.update_eq_self]
    exact body_read ⟨rdev, _, queue, ended⟩ ⟨dev, flags, pos, seg :: segs, completed⟩ rfl hd hload
  · obtain ⟨disk₁, out, hstore, rfl, htail⟩ := serve_write_cons hd hserve
    exact ⟨disk₁, seg, out, rfl, rfl, htail,
      body_write ⟨rdev, _, queue, ended⟩ ⟨dev, flags, pos, seg :: segs, completed⟩ rfl hd hstore⟩

/-! ## The copies of a run -/

/-- A range of the disk of one device. -/
structure Range (N : Nat) where
  dev : Fin N
  off : Nat
  len : Nat

/-- The range of the disk that the `memcpy` of an iteration touches. -/
def memcpy (s : State N) : Option (Range N) :=
  s.req.map fun req =>
    ⟨req.rq_disk, blk_rq_pos req * RAMHD_SECTOR_SIZE % 2 ^ 64, blk_rq_cur_bytes req⟩

/-- The byte `i` of the disk `dev` is not in the range. -/
def Range.Misses (r : Range N) (dev : Fin N) (i : Nat) : Prop :=
  dev = r.dev → i < r.off ∨ r.off + r.len ≤ i

theorem endCur_rdev (s : State N) (req : Request N) : (endCur s req).rdev = s.rdev := by
  unfold endCur
  simp only
  split
  · rfl
  · rfl

/-- How an iteration ends does not depend on the disks. -/
theorem endCur_congr (s : State N) (rdev : Devices N) (req : Request N) :
    endCur { s with rdev := rdev } req = { endCur s req with rdev := rdev } := by
  unfold endCur
  simp only
  split
  · rfl
  · rfl

/-- The loop is left in the middle of a request exactly when its `memcpy` leaves the disk. -/
theorem body_exit_iff {s : State N} {r : Range N} (hr : memcpy s = some r) :
    body s = .exit none ↔ RAMHD_SIZE < r.off + r.len := by
  obtain ⟨req, hreq, rfl⟩ := Option.map_eq_some_iff.mp hr
  by_cases hfit : blk_rq_pos req * RAMHD_SECTOR_SIZE % 2 ^ 64 + blk_rq_cur_bytes req ≤ RAMHD_SIZE
  · refine iff_of_false ?_ (not_lt.mpr hfit)
    by_cases hdir : rq_data_dir req = READ
    · rw [body_read s req hreq hdir (Region.load_of_le hfit)]
      exact nofun
    · rw [body_write s req hreq hdir (Region.store_of_le hfit)]
      exact nofun
  · refine iff_of_true ?_ (not_le.mp hfit)
    have hload : (s.rdev req.rq_disk).load (blk_rq_pos req * RAMHD_SECTOR_SIZE % 2 ^ 64)
        (blk_rq_cur_bytes req) = none := if_neg hfit
    have hstore : (s.rdev req.rq_disk).store (blk_rq_pos req * RAMHD_SECTOR_SIZE % 2 ^ 64)
        (buffer req) = none := if_neg hfit
    simp only [body, hreq, hload, hstore, ite_self]

/-- An iteration leaves every byte as it is that its `memcpy` does not touch. -/
theorem body_frame {s s' : State N} {r : Range N} (hr : memcpy s = some r)
    (hbody : body s = .next s') {dev : Fin N} {i : Fin RAMHD_SIZE} (hmiss : r.Misses dev i) :
    s'.rdev dev i = s.rdev dev i := by
  obtain ⟨req, hreq, rfl⟩ := Option.map_eq_some_iff.mp hr
  unfold body at hbody
  simp only [hreq] at hbody
  split at hbody
  · split at hbody
    · cases hbody
    · cases hbody
      rw [endCur_rdev]
  · split at hbody
    · cases hbody
    · rename_i disk hstore
      cases hbody
      rw [endCur_rdev]
      by_cases hdev : dev = req.rq_disk
      · subst hdev
        unfold Region.store at hstore
        obtain ⟨-, rfl⟩ := Run.accepted hstore
        show Function.update s.rdev req.rq_disk _ req.rq_disk i = _
        rw [Function.update_self]
        exact Region.splice_outside _ (hmiss rfl)
      · exact congrFun (Function.update_of_ne hdev _ _) i

/-- And it depends on no other: with the bytes of the range it goes on in the same way. -/
theorem body_congr {s s' : State N} {r : Range N} (hr : memcpy s = some r)
    (hbody : body s = .next s') {rdev : Devices N}
    (hsame : ∀ i : Fin RAMHD_SIZE, ¬ r.Misses r.dev i → rdev r.dev i = s.rdev r.dev i) :
    ∃ rdev', body { s with rdev := rdev } = .next { s' with rdev := rdev' } := by
  obtain ⟨req, hreq, rfl⟩ := Option.map_eq_some_iff.mp hr
  have hslice : (rdev req.rq_disk).slice (blk_rq_pos req * RAMHD_SECTOR_SIZE % 2 ^ 64)
      (blk_rq_cur_bytes req) = (s.rdev req.rq_disk).slice
        (blk_rq_pos req * RAMHD_SECTOR_SIZE % 2 ^ 64) (blk_rq_cur_bytes req) :=
    Region.slice_congr fun i hlo hhi => hsame i fun hmiss => by
      have := hmiss rfl
      simp only at this
      omega
  unfold body Region.load Region.store at hbody ⊢
  simp only [hreq] at hbody ⊢
  split at hbody
  · rename_i hdir
    split at hbody
    · cases hbody
    · rename_i bytes hload
      obtain ⟨hfit, rfl⟩ := Run.accepted hload
      cases hbody
      rw [if_pos hdir, if_pos hfit, hslice]
      exact ⟨rdev, congrArg Step.next (endCur_congr s rdev _)⟩
  · rename_i hdir
    split at hbody
    · cases hbody
    · rename_i disk hstore
      obtain ⟨hfit, rfl⟩ := Run.accepted hstore
      cases hbody
      rw [if_neg hdir, if_pos hfit]
      exact ⟨Function.update rdev req.rq_disk ((rdev req.rq_disk).splice
        (blk_rq_pos req * RAMHD_SECTOR_SIZE % 2 ^ 64) (buffer req)),
        congrArg Step.next (endCur_congr ⟨_, some req, s.queue, s.ended⟩ _ req)⟩

/-- A run of the loop leaves every byte as it is that none of its copies touch. -/
theorem path_frame {s s' : State N} {visited : List (State N)} (h : Path body s visited s')
    {dev : Fin N} {i : Fin RAMHD_SIZE} (hmiss : ∀ r ∈ visited.filterMap memcpy, r.Misses dev i) :
    s'.rdev dev i = s.rdev dev i := by
  induction h with
  | refl s => rfl
  | @next s s₁ s₂ visited hbody _ ih =>
      cases hr : memcpy s with
      | none =>
          -- without a request the loop is left
          rw [memcpy, Option.map_eq_none_iff] at hr
          rw [body, hr] at hbody
          cases hbody
      | some r =>
          rw [List.filterMap_cons_some hr] at hmiss
          rw [ih fun r' hr' => hmiss r' (List.mem_cons_of_mem r hr')]
          exact body_frame hr hbody (hmiss r List.mem_cons_self)

/-- One range for each segment, at the cursor. -/
def ranges (dev : Fin N) : Nat → List Segment → List (Range N)
  | _, [] => []
  | pos, seg :: segs =>
      ⟨dev, pos * RAMHD_SECTOR_SIZE % 2 ^ 64, seg.length⟩ ::
        ranges dev (pos + seg.length >>> 9) segs

/-- The ranges of a request, segment by segment.  Without a segment the loop still
makes one turn, and copies no byte. -/
def requestRanges (req : Request N) : List (Range N) :=
  match req.segs with
  | [] => [⟨req.rq_disk, req.pos * RAMHD_SECTOR_SIZE % 2 ^ 64, 0⟩]
  | segs => ranges req.rq_disk req.pos segs

/-- The loop serves the current request to its end and goes on with the queue.
By induction over the segments; the request ends with the iteration of the last
one, so the list is a segment and the rest. -/
theorem path_of_serve {dev : Fin N} {flags : Nat} (queue ended : List (Request N)) :
    ∀ (segs : List Segment) (seg : Segment) (rdev : Devices N) (pos : Nat)
      (completed : List Segment) {disk' : Disk} {segs' : List Segment},
      serve (flags % 2) (rdev dev) pos (seg :: segs) = some (disk', segs') →
      ∃ (pos' : Nat) (visited : List (State N)),
        visited.filterMap memcpy = ranges dev pos (seg :: segs) ∧
        Path body ⟨rdev, some ⟨dev, flags, pos, seg :: segs, completed⟩, queue, ended⟩ visited
          (blk_fetch_request ⟨Function.update rdev dev disk', none, queue,
            ended ++ [⟨dev, flags, pos', [], completed ++ segs'⟩]⟩) := by
  intro segs
  induction segs with
  | nil =>
      intro seg rdev pos completed disk' segs' hserve
      obtain ⟨disk₁, bytes, out, rfl, hlen, htail, hbody⟩ :=
        body_of_serve completed queue ended hserve
      obtain ⟨rfl, rfl⟩ := Prod.mk.inj (Option.some.inj htail)
      exact ⟨_, _, rfl, .single hbody⟩
  | cons seg' segs ih =>
      intro seg rdev pos completed disk' segs' hserve
      obtain ⟨disk₁, bytes, out, rfl, hlen, htail, hbody⟩ :=
        body_of_serve completed queue ended hserve
      obtain ⟨pos', visited, hranges, hpath⟩ := ih seg' (Function.update rdev dev disk₁)
        (pos + seg.length >>> 9) (completed ++ [bytes]) (by rw [Function.update_self]; exact htail)
      rw [Function.update_idem, List.append_assoc, List.singleton_append] at hpath
      refine ⟨pos', _ :: visited, ?_, .next hbody ?_⟩
      · rw [ranges, ← hranges]
        rfl
      · rw [← hlen] at hpath
        exact hpath

/-- One request of any kind, in front of any queue. -/
theorem path_of_request {rdev : Devices N} (req : Request N) {segs' : List Segment}
    {disk' : Disk} (queue ended : List (Request N))
    (hpos : req.pos * RAMHD_SECTOR_SIZE ≤ RAMHD_SIZE)
    (hserve : serve (req.cmd_flags % 2) (rdev req.rq_disk) req.pos req.segs =
      some (disk', segs')) :
    ∃ (pos' : Nat) (visited : List (State N)),
      visited.filterMap memcpy = requestRanges req ∧
      Path body ⟨rdev, some req, queue, ended⟩ visited
        (blk_fetch_request ⟨Function.update rdev req.rq_disk disk', none, queue,
          ended ++ [⟨req.rq_disk, req.cmd_flags, pos', [], req.completed ++ segs'⟩]⟩) := by
  obtain ⟨dev, flags, pos, segs, completed⟩ := req
  cases segs with
  | nil =>
      -- a request without data: one iteration that copies nothing
      obtain ⟨rfl, rfl⟩ := Prod.mk.inj (Option.some.inj hserve)
      have haddr : pos * RAMHD_SECTOR_SIZE % 2 ^ 64 + 0 ≤ RAMHD_SIZE :=
        Nat.le_trans (Nat.mod_le _ _) hpos
      refine ⟨pos, _, rfl, .single ?_⟩
      rw [Function.update_eq_self, List.append_nil]
      by_cases hd : flags % 2 = READ
      · exact body_read ⟨rdev, _, queue, ended⟩ ⟨dev, flags, pos, [], completed⟩ rfl hd
          (Region.load_of_le haddr)
      · rw [body_write ⟨rdev, _, queue, ended⟩ ⟨dev, flags, pos, [], completed⟩ rfl hd
          (Region.store_of_le haddr)]
        show Step.next (endCur ⟨Function.update rdev dev ((rdev dev).splice _ []), _, _, _⟩ _) = _
        rw [Region.splice_nil, Function.update_eq_self]
        rfl
  | cons seg segs => exact path_of_serve queue ended segs seg rdev pos completed hserve

/-- A queue of one request: the loop ends with what `serve` computes. -/
theorem req_func_of_serve {rdev : Devices N} {dev : Fin N} {flags pos : Nat}
    {segs segs' : List Segment} {disk' : Disk} (hpos : pos * RAMHD_SECTOR_SIZE ≤ RAMHD_SIZE)
    (hserve : serve (flags % 2) (rdev dev) pos segs = some (disk', segs')) :
    ∃ req', ramhd_req_func rdev [⟨dev, flags, pos, segs, []⟩]
      (some (Function.update rdev dev disk', [req'])) ∧ req'.completed = segs' := by
  obtain ⟨pos', visited, -, hpath⟩ :=
    path_of_request ⟨dev, flags, pos, segs, []⟩ [] [] hpos hserve
  exact ⟨⟨dev, flags, pos', [], segs'⟩, hpath.ends (.of_exit rfl), rfl⟩

/-! ## The cursor against the pointer -/

theorem shiftRight_nine (l : Nat) : l >>> 9 = l / RAMHD_SECTOR_SIZE :=
  Nat.shiftRight_eq_div_pow l 9

theorem addr_eq {pos : Nat} (h : pos * RAMHD_SECTOR_SIZE ≤ RAMHD_SIZE) :
    pos * RAMHD_SECTOR_SIZE % 2 ^ 64 = pos * RAMHD_SECTOR_SIZE :=
  Nat.mod_eq_of_lt (Nat.lt_of_le_of_lt h (by decide))

/-- The cursor never passes the pointer. -/
theorem cursor_le (pos l : Nat) :
    (pos + l >>> 9) * RAMHD_SECTOR_SIZE ≤ pos * RAMHD_SECTOR_SIZE + l := by
  rw [shiftRight_nine, Nat.add_mul]
  exact Nat.add_le_add_left (Nat.div_mul_le_self l RAMHD_SECTOR_SIZE) _

/-- It keeps up with it exactly over whole sectors. -/
theorem cursor_eq_iff (pos l : Nat) :
    (pos + l >>> 9) * RAMHD_SECTOR_SIZE = pos * RAMHD_SECTOR_SIZE + l ↔
      RAMHD_SECTOR_SIZE ∣ l := by
  rw [shiftRight_nine, Nat.add_mul, Nat.add_left_cancel_iff, Nat.dvd_iff_div_mul_eq]

/-- Over whole sectors the two loops are one. -/
theorem serve_eq_segmentLoop {dir : Nat} (hdir : dir = READ ∨ dir = WRITE) {segs : List Segment}
    (hal : ∀ seg ∈ segs, RAMHD_SECTOR_SIZE ∣ seg.length) (disk : Disk) {pos : Nat}
    (hfit : pos * RAMHD_SECTOR_SIZE + total segs ≤ RAMHD_SIZE) :
    serve dir disk pos segs = segmentLoop dir disk (pos * RAMHD_SECTOR_SIZE) segs := by
  induction segs generalizing disk pos with
  | nil => rfl
  | cons seg segs ih =>
      rw [total_cons] at hfit
      have hcur := (cursor_eq_iff pos seg.length).mpr (hal seg (by simp))
      have hrest : ∀ disk, serve dir disk (pos + seg.length >>> 9) segs =
          segmentLoop dir disk (pos * RAMHD_SECTOR_SIZE + seg.length) segs := by
        intro disk
        rw [ih (fun s hs => hal s (List.mem_cons_of_mem _ hs)) disk (by omega), hcur]
      rcases hdir with rfl | rfl
      · rw [serve, segmentLoop, if_pos rfl, if_pos rfl, addr_eq (by omega),
          Region.load_of_le (by omega), Option.bind_some, Option.bind_some,
          Region.length_slice _ (by omega), hrest]
      · rw [serve, segmentLoop, if_neg (by decide), if_neg (by decide), if_pos rfl,
          addr_eq (by omega), Region.store_of_le (by omega), Option.bind_some, Option.bind_some,
          hrest]

/-- The buffers a read through the request loop leaves. -/
def refilled (disk : Disk) : Nat → List Segment → List Segment
  | _, [] => []
  | pos, seg :: segs =>
      disk.slice (pos * RAMHD_SECTOR_SIZE) seg.length ::
        refilled disk (pos + seg.length >>> 9) segs

theorem serve_read (disk : Disk) {segs : List Segment} {pos : Nat}
    (hfit : pos * RAMHD_SECTOR_SIZE + total segs ≤ RAMHD_SIZE) :
    serve READ disk pos segs = some (disk, refilled disk pos segs) := by
  induction segs generalizing pos with
  | nil => rfl
  | cons seg segs ih =>
      rw [total_cons] at hfit
      have := cursor_le pos seg.length
      rw [serve, if_pos rfl, addr_eq (by omega), Region.load_of_le (by omega), Option.bind_some,
        Region.length_slice _ (by omega), ih (by omega)]
      rfl

/-! ## When the drivers agree -/

/-- One transfer through both drivers: the bio is completed without an error, the
request loop ends, and disks and buffers are the same. -/
def Agree (rdev : Devices N) (dev : Fin N) (rw sector : Nat) (segs : List Segment) : Prop :=
  ∃ (rdev' : Devices N) (segs' : List Segment) (req' : Request N),
    ramhd_make_request rdev ⟨dev, rw, sector, total segs, segs, rfl⟩ = some (rdev', ⟨segs', 0⟩) ∧
    ramhd_req_func rdev [⟨dev, rw, sector, segs, []⟩] (some (rdev', [req'])) ∧
    req'.completed = segs'

section Transfer

variable {dev : Fin N} {rw sector : Nat} {segs : List Segment}

/-- A transfer on the disk passes the bio driver's check. -/
theorem make_request_of_fit (rdev : Devices N) (dev : Fin N) (rw : Nat)
    (hfit : sector * RAMHD_SECTOR_SIZE + total segs ≤ RAMHD_SIZE) :
    ramhd_make_request rdev ⟨dev, rw, sector, total segs, segs, rfl⟩ =
      (segmentLoop (rw % 2) (rdev dev) (sector * RAMHD_SECTOR_SIZE) segs).map fun out =>
        (Function.update rdev dev out.1, ⟨out.2, 0⟩) := by
  have hin : InRange (⟨dev, rw, sector, total segs, segs, rfl⟩ : Bio N) := hfit
  rw [make_request_inRange rdev hin, byteOffset_eq hin.fits]
  rfl

theorem agree_of_aligned (rdev : Devices N)
    (hfit : sector * RAMHD_SECTOR_SIZE + total segs ≤ RAMHD_SIZE)
    (hal : ∀ seg ∈ segs, RAMHD_SECTOR_SIZE ∣ seg.length) : Agree rdev dev rw sector segs := by
  have hdir : rw % 2 = READ ∨ rw % 2 = WRITE := by unfold READ WRITE; omega
  have hsome : ∃ out, segmentLoop (rw % 2) (rdev dev) (sector * RAMHD_SECTOR_SIZE) segs
      = some out := by
    rcases hdir with hd | hd <;> rw [hd]
    · exact ⟨_, segmentLoop_read _ hfit⟩
    · exact ⟨_, segmentLoop_write _ hfit⟩
  obtain ⟨⟨disk', segs'⟩, hloop⟩ := hsome
  have hserve : serve (rw % 2) (rdev dev) sector segs = some (disk', segs') := by
    rw [serve_eq_segmentLoop hdir hal _ hfit, hloop]
  obtain ⟨req', hreq, hc⟩ := req_func_of_serve (by omega) hserve
  refine ⟨_, segs', req', ?_, hreq, hc⟩
  rw [make_request_of_fit rdev dev rw hfit, hloop]
  rfl

theorem agree_read_iff (rdev : Devices N)
    (hfit : sector * RAMHD_SECTOR_SIZE + total segs ≤ RAMHD_SIZE) :
    Agree rdev dev READ sector segs ↔
      filled (rdev dev) (sector * RAMHD_SECTOR_SIZE) segs = refilled (rdev dev) sector segs := by
  have hbio := make_request_of_fit rdev dev READ hfit
  rw [show READ % 2 = READ from rfl, segmentLoop_read _ hfit, Option.map_some,
    Function.update_eq_self] at hbio
  have hserve : serve (READ % 2) (rdev dev) sector segs =
      some (rdev dev, refilled (rdev dev) sector segs) := serve_read (rdev dev) hfit
  obtain ⟨req, hreq, hc⟩ := req_func_of_serve (by omega) hserve
  rw [Function.update_eq_self] at hreq
  constructor
  · rintro ⟨rdev', segs', req', hb, hr, rfl⟩
    have hout := hreq.unique hr
    simp only [Option.some.injEq, Prod.mk.injEq, List.cons.injEq, and_true] at hout
    rw [hbio] at hb
    simp only [Option.some.injEq, Prod.mk.injEq, Completion.mk.injEq, and_true] at hb
    rw [hb.2, ← hout.2, hc]
  · intro heq
    exact ⟨rdev, _, req, hbio, hreq, hc.trans heq.symm⟩

end Transfer

/-- The disk that is zero but for a one at `i`. -/
def spike (i : Nat) : Disk := fun j => if (j : Nat) = i then 1 else 0

/-- The first byte of a slice of a spike says whether the slice starts at it. -/
theorem head_slice_spike (i : Nat) {p len : Nat} (hlen : 0 < len) (hfit : p + len ≤ RAMHD_SIZE) :
    ((spike i).slice p len)[0]? = some (if p = i then 1 else 0) := by
  rw [Region.getElem?_slice _ hfit hlen]
  rfl

/-- If no spike tells the two readings apart, the segments are whole sectors.
The last segment is one because the transfer is; each earlier one is followed by
a segment that the two drivers must begin at the same byte. -/
theorem aligned_of_refilled {segs : List Segment} (hpos : ∀ seg ∈ segs, 0 < seg.length)
    {pos : Nat} (hmul : RAMHD_SECTOR_SIZE ∣ total segs)
    (hfit : pos * RAMHD_SECTOR_SIZE + total segs ≤ RAMHD_SIZE)
    (heq : ∀ i, filled (spike i) (pos * RAMHD_SECTOR_SIZE) segs = refilled (spike i) pos segs) :
    ∀ seg ∈ segs, RAMHD_SECTOR_SIZE ∣ seg.length := by
  induction segs generalizing pos with
  | nil => simp
  | cons seg segs ih =>
      have htail : ∀ i, filled (spike i) (pos * RAMHD_SECTOR_SIZE + seg.length) segs
          = refilled (spike i) (pos + seg.length >>> 9) segs := fun i => (List.cons.inj (heq i)).2
      rw [total_cons] at hfit hmul
      have hle := cursor_le pos seg.length
      have hseg : RAMHD_SECTOR_SIZE ∣ seg.length := by
        cases segs with
        | nil => simpa using hmul
        | cons seg' segs =>
            have h0 : 0 < seg'.length := hpos seg' (by simp)
            rw [total_cons] at hfit
            -- the spike stands where the bio driver begins `seg'`
            have hstart : ((spike (pos * RAMHD_SECTOR_SIZE + seg.length)).slice
                (pos * RAMHD_SECTOR_SIZE + seg.length) seg'.length)[0]? = some 1 := by
              rw [head_slice_spike _ h0 (by omega), if_pos rfl]
            rw [(List.cons.inj (htail _)).1, head_slice_spike _ h0 (by omega)] at hstart
            by_contra hne
            rw [if_neg fun h => hne ((cursor_eq_iff pos seg.length).mp h)] at hstart
            exact absurd hstart (by decide)
      have hcur := (cursor_eq_iff pos seg.length).mpr hseg
      intro s hs
      rcases List.mem_cons.mp hs with rfl | hs
      · exact hseg
      · have hfit' : (pos + seg.length >>> 9) * RAMHD_SECTOR_SIZE + total segs ≤ RAMHD_SIZE := by
          omega
        refine ih (fun s hs => hpos s (List.mem_cons_of_mem _ hs))
          ((Nat.dvd_add_right hseg).mp hmul) hfit' (fun i => ?_) s hs
        rw [hcur]
        exact htail i

theorem total_replicate (lens : List Nat) :
    total (lens.map fun l => List.replicate l 0) = lens.sum := by
  simp [total, Function.comp_def]

theorem drivers_agree_iff (dev : Fin N) (sector : Nat) (lens : List Nat)
    (hpos : ∀ l ∈ lens, 0 < l) (hmul : RAMHD_SECTOR_SIZE ∣ lens.sum)
    (hfit : sector * RAMHD_SECTOR_SIZE + lens.sum ≤ RAMHD_SIZE) :
    (∀ (rdev : Devices N) (rw : Nat) (segs : List Segment), segs.map List.length = lens →
        Agree rdev dev rw sector segs) ↔
      ∀ l ∈ lens, RAMHD_SECTOR_SIZE ∣ l := by
  constructor
  · intro hall l hl
    let segs : List Segment := lens.map fun l => List.replicate l 0
    have hsegs : segs.map List.length = lens := by simp [segs, Function.comp_def]
    have htotal : total segs = lens.sum := total_replicate lens
    have hread : ∀ i, filled (spike i) (sector * RAMHD_SECTOR_SIZE) segs
        = refilled (spike i) sector segs := fun i =>
      (agree_read_iff (fun _ => spike i) (by rw [htotal]; exact hfit)).mp
        (hall (fun _ => spike i) READ segs hsegs)
    have hseg : ∀ seg ∈ segs, 0 < seg.length := by
      simp [segs]
      exact hpos
    have hal := aligned_of_refilled hseg (htotal ▸ hmul) (by rw [htotal]; exact hfit) hread
    simpa using hal (List.replicate l 0) (List.mem_map.mpr ⟨l, hl, rfl⟩)
  · rintro hal rdev rw segs rfl
    exact agree_of_aligned rdev hfit fun seg hseg => hal _ (List.mem_map.mpr ⟨seg, hseg, rfl⟩)

theorem drivers_agree_three_sectors :
    (∀ l ∈ [512, 1024], 0 < l) ∧ RAMHD_SECTOR_SIZE ∣ [512, 1024].sum ∧
      4 * RAMHD_SECTOR_SIZE + [512, 1024].sum ≤ RAMHD_SIZE ∧
      ∀ (rdev : Devices 2) (rw : Nat) (segs : List Segment),
        segs.map List.length = [512, 1024] → Agree rdev 1 rw 4 segs :=
  ⟨by decide, by decide, by decide,
    (drivers_agree_iff 1 4 [512, 1024] (by decide) (by decide) (by decide)).mpr (by decide)⟩

/-- One sector in segments of 1 and 511 bytes.  The bio driver reads the second
one from byte 1 on, the request driver from byte 0 again. -/
def shortSegment : List Segment := [1, 511].map fun l => List.replicate l 0

theorem short_segment_rereads :
    (∀ seg ∈ shortSegment, 0 < seg.length) ∧ total shortSegment = RAMHD_SECTOR_SIZE ∧
      ¬ Agree (N := 1) (fun _ => spike 1) 0 READ 0 shortSegment := by
  have htotal : total shortSegment = RAMHD_SECTOR_SIZE := total_replicate [1, 511]
  refine ⟨?_, htotal, ?_⟩
  · simp only [shortSegment, List.forall_mem_map, List.length_replicate]
    decide
  rw [agree_read_iff _ (by rw [htotal]; decide)]
  intro heq
  have hsecond : (spike 1).slice 1 511 = (spike 1).slice 0 511 := by
    have h := (List.cons.inj (List.cons.inj heq).2).1
    simp only [List.length_replicate] at h
    exact h
  have hbio : ((spike 1).slice 1 511)[0]? = some 1 :=
    head_slice_spike 1 (by decide) (by decide)
  rw [hsecond, head_slice_spike 1 (by decide) (by decide)] at hbio
  exact absurd hbio (by decide)

end KernelLab.RamDisk.RequestFunc
