/-
# `KernelLab.RamDisk.RequestQueue` — a whole queue through `ramhd_req_func`

The driver checks no range.  That its copies stay on the disk rests on what the block
layer lets through, requests of whole sectors below the capacity `set_capacity`
announced, and on the cursor, which falls behind the bytes already copied but never
runs ahead of them (`cursor_le`).

## What is proved

`req_func_stays_inside`: for every queue of such requests, however they are divided
into segments, the loop comes to its end, with every segment served once and the disks
as `serve` leaves them, request by request; on the way it makes one copy for each
segment of each request, in order, every copy lies on the disk of the request's own
device, and no other byte changes.
-/
import KernelLab.RamDisk.RequestFunc

namespace KernelLab.RamDisk.RequestFunc

open KernelLab.Loop

variable {N : Nat}

/-- Whole sectors, below the announced capacity. -/
def Within (req : Request N) : Prop :=
  ∃ sectors, total req.segs = sectors * RAMHD_SECTOR_SIZE ∧
    req.pos + sectors ≤ RAMHD_SECTOR_TOTAL

/-- `req'` is `req` at its end: every segment completed once, in order. -/
structure Served (req req' : Request N) : Prop where
  rq_disk : req'.rq_disk = req.rq_disk
  cmd_flags : req'.cmd_flags = req.cmd_flags
  left : req'.segs = []
  completed : req'.completed.map List.length = (req.completed ++ req.segs).map List.length

/-- The requests of a queue served in order: the disks, and the segments of each request. -/
def serveQueue : Devices N → List (Request N) → Option (Devices N × List (List Segment))
  | rdev, [] => some (rdev, [])
  | rdev, req :: queue =>
      (serve (rq_data_dir req) (rdev req.rq_disk) (blk_rq_pos req) req.segs).bind fun out =>
        (serveQueue (Function.update rdev req.rq_disk out.1) queue).map fun rest =>
          (rest.1, out.2 :: rest.2)

theorem Within.fits {req : Request N} (h : Within req) :
    req.pos * RAMHD_SECTOR_SIZE + total req.segs ≤ RAMHD_SIZE := by
  obtain ⟨sectors, htotal, hle⟩ := h
  rw [htotal, ← Nat.add_mul, RAMHD_SIZE, Nat.mul_comm RAMHD_SECTOR_SIZE]
  exact Nat.mul_le_mul_right _ hle

/-! ## One request -/

/-- A request on the disk is served, and no segment changes its length. -/
theorem serve_fits (dir : Nat) {segs : List Segment} (disk : Disk) {pos : Nat}
    (hfit : pos * RAMHD_SECTOR_SIZE + total segs ≤ RAMHD_SIZE) :
    ∃ disk' segs', serve dir disk pos segs = some (disk', segs') ∧
      segs'.map List.length = segs.map List.length := by
  induction segs generalizing disk pos with
  | nil => exact ⟨disk, [], rfl, rfl⟩
  | cons seg segs ih =>
      rw [total_cons] at hfit
      have hcur := cursor_le pos seg.length
      have hrest : (pos + seg.length >>> 9) * RAMHD_SECTOR_SIZE + total segs ≤ RAMHD_SIZE := by
        omega
      by_cases hd : dir = READ
      · obtain ⟨disk', segs', hserve, hlen⟩ := ih disk hrest
        have hbytes : (disk.slice (pos * RAMHD_SECTOR_SIZE) seg.length).length = seg.length :=
          Region.length_slice disk (by omega)
        refine ⟨disk', disk.slice (pos * RAMHD_SECTOR_SIZE) seg.length :: segs', ?_, ?_⟩
        · rw [serve, if_pos hd, addr_eq (by omega), Region.load_of_le (by omega),
            Option.bind_some, hbytes, hserve, Option.map_some]
        · rw [List.map_cons, List.map_cons, hbytes, hlen]
      · obtain ⟨disk', segs', hserve, hlen⟩ :=
          ih (disk.splice (pos * RAMHD_SECTOR_SIZE) seg) hrest
        refine ⟨disk', seg :: segs', ?_, ?_⟩
        · rw [serve, if_neg hd, addr_eq (by omega), Region.store_of_le (by omega),
            Option.bind_some, hserve, Option.map_some]
        · rw [List.map_cons, List.map_cons, hlen]

theorem ranges_inside (dev : Fin N) {segs : List Segment} {pos : Nat}
    (hfit : pos * RAMHD_SECTOR_SIZE + total segs ≤ RAMHD_SIZE) :
    ∀ r ∈ ranges dev pos segs, r.dev = dev ∧ r.off + r.len ≤ RAMHD_SIZE := by
  induction segs generalizing pos with
  | nil => simp [ranges]
  | cons seg segs ih =>
      rw [total_cons] at hfit
      have hcur := cursor_le pos seg.length
      intro r hr
      rcases List.mem_cons.mp hr with rfl | hr
      · refine ⟨rfl, ?_⟩
        show pos * RAMHD_SECTOR_SIZE % 2 ^ 64 + seg.length ≤ RAMHD_SIZE
        rw [addr_eq (by omega)]
        omega
      · exact ih (by omega) r hr

theorem requestRanges_inside {req : Request N} (h : Within req) :
    ∀ r ∈ requestRanges req, r.dev = req.rq_disk ∧ r.off + r.len ≤ RAMHD_SIZE := by
  have hfit := h.fits
  unfold requestRanges
  split
  · intro r hr
    obtain rfl := List.mem_singleton.mp hr
    refine ⟨rfl, ?_⟩
    show req.pos * RAMHD_SECTOR_SIZE % 2 ^ 64 + 0 ≤ RAMHD_SIZE
    rw [addr_eq (by omega)]
    omega
  · exact ranges_inside req.rq_disk hfit

/-! ## The queue -/

/-- The loop works off the queue; by induction over it, one request at a time. -/
theorem path_of_queue {queue : List (Request N)} (h : ∀ req ∈ queue, Within req)
    (rdev : Devices N) (ended : List (Request N)) :
    ∃ visited rdev' segss ended', serveQueue rdev queue = some (rdev', segss) ∧
      List.Forall₂ Served queue ended' ∧
      ended'.map Request.completed =
        List.zipWith (fun req segs => req.completed ++ segs) queue segss ∧
      visited.filterMap memcpy = queue.flatMap requestRanges ∧
      Path body (blk_fetch_request ⟨rdev, none, queue, ended⟩) visited
        ⟨rdev', none, [], ended ++ ended'⟩ := by
  induction queue generalizing rdev ended with
  | nil =>
      exact ⟨[], rdev, [], [], rfl, .nil, rfl, rfl, by rw [List.append_nil]; exact .refl _⟩
  | cons req queue ih =>
      have hfit := (h req List.mem_cons_self).fits
      obtain ⟨disk', segs', hserve, hlen⟩ :=
        serve_fits (req.cmd_flags % 2) (rdev req.rq_disk) hfit
      obtain ⟨pos', visited₁, hranges₁, hpath₁⟩ :=
        path_of_request req queue ended (by omega) hserve
      let req' : Request N :=
        ⟨req.rq_disk, req.cmd_flags, pos', [], req.completed ++ segs'⟩
      have hreq : Served req req' :=
        ⟨rfl, rfl, rfl, by rw [List.map_append, List.map_append, hlen]⟩
      obtain ⟨visited₂, rdev', segss, ended', hqueue, hserved, hcompleted, hranges₂, hpath₂⟩ :=
        ih (fun r hr => h r (List.mem_cons_of_mem _ hr))
          (Function.update rdev req.rq_disk disk') (ended ++ [req'])
      refine ⟨visited₁ ++ visited₂, rdev', segs' :: segss, req' :: ended', ?_,
        .cons hreq hserved, ?_, ?_, ?_⟩
      · have hserve' : serve (rq_data_dir req) (rdev req.rq_disk) (blk_rq_pos req) req.segs =
            some (disk', segs') := hserve
        rw [serveQueue, hserve', Option.bind_some, hqueue, Option.map_some]
      · rw [List.map_cons, hcompleted, List.zipWith_cons_cons]
      · rw [List.filterMap_append, hranges₁, hranges₂, List.flatMap_cons]
      · rw [List.append_assoc, List.singleton_append] at hpath₂
        exact hpath₁.trans hpath₂

theorem req_func_stays_inside (rdev : Devices N) (queue : List (Request N))
    (h : ∀ req ∈ queue, Within req) :
    ∃ visited last rdev' segss ended,
      Path body (blk_fetch_request ⟨rdev, none, queue, []⟩) visited last ∧
      body last = .exit (some (rdev', ended)) ∧
      ramhd_req_func rdev queue (some (rdev', ended)) ∧
      serveQueue rdev queue = some (rdev', segss) ∧
      List.Forall₂ Served queue ended ∧
      ended.map Request.completed =
        List.zipWith (fun req segs => req.completed ++ segs) queue segss ∧
      visited.filterMap memcpy = queue.flatMap requestRanges ∧
      (∀ req ∈ queue, ∀ r ∈ requestRanges req,
        r.dev = req.rq_disk ∧ r.off + r.len ≤ RAMHD_SIZE) ∧
      ∀ (dev : Fin N) (i : Fin RAMHD_SIZE),
        (∀ req ∈ queue, ∀ r ∈ requestRanges req, r.Misses dev i) → rdev' dev i = rdev dev i := by
  obtain ⟨visited, rdev', segss, ended, hqueue, hserved, hcompleted, hranges, hpath⟩ :=
    path_of_queue h rdev []
  refine ⟨visited, _, rdev', segss, ended, hpath, rfl, hpath.ends (.of_exit rfl), hqueue, hserved,
    hcompleted, hranges, fun req hreq => requestRanges_inside (h req hreq), ?_⟩
  intro dev i hmiss
  refine path_frame hpath fun r hr => ?_
  rw [hranges] at hr
  obtain ⟨req, hreq, hin⟩ := List.mem_flatMap.mp hr
  exact hmiss req hreq r hin

/-- The bytes of the last sector but one. -/
def nines : Segment := List.replicate 511 9

theorem length_nines : nines.length = 511 := List.length_replicate

/-- The last sector of the second device, in segments of 1 and 511 bytes. -/
def lastSector : Request 2 := ⟨Fin.last 1, WRITE, 16383, [[7], nines], []⟩

theorem within_lastSector : Within lastSector := by
  refine ⟨1, ?_, by decide⟩
  show total [[7], nines] = 1 * RAMHD_SECTOR_SIZE
  rw [total_cons, total_cons, length_nines]
  rfl

/-- Both segments go to the beginning of the sector. -/
theorem serve_lastSector (disk : Disk) :
    serve WRITE disk 16383 [[7], nines] =
      some ((disk.splice 8388096 [7]).splice 8388096 nines, [[7], nines]) := by
  have hfirst : disk.store (16383 * RAMHD_SECTOR_SIZE % 2 ^ 64) [7] =
      some (disk.splice 8388096 [7]) := Region.store_of_le (by decide)
  have hsecond : (disk.splice 8388096 [7]).store (16383 * RAMHD_SECTOR_SIZE % 2 ^ 64) nines =
      some ((disk.splice 8388096 [7]).splice 8388096 nines) :=
    Region.store_of_le (by rw [length_nines]; decide)
  rw [serve, if_neg (by decide), hfirst, Option.bind_some, serve, if_neg (by decide)]
  show (((disk.splice 8388096 [7]).store (16383 * RAMHD_SECTOR_SIZE % 2 ^ 64) nines).bind
    _).map _ = _
  rw [hsecond]
  rfl

theorem serveQueue_lastSector (rdev : Devices 2) :
    serveQueue rdev [lastSector] =
      some (Function.update rdev 1 (((rdev 1).splice 8388096 [7]).splice 8388096 nines),
        [[[7], nines]]) := by
  have hserve : serve (rq_data_dir lastSector) (rdev lastSector.rq_disk) (blk_rq_pos lastSector)
      lastSector.segs = some _ := serve_lastSector (rdev 1)
  rw [serveQueue, hserve]
  rfl

theorem req_func_stays_inside_lastSector :
    Within lastSector ∧
      ∃ visited last rdev' ended,
        Path body (blk_fetch_request ⟨fun _ _ => 0, none, [lastSector], []⟩) visited last ∧
        body last = .exit (some (rdev', ended)) ∧
        visited.filterMap memcpy = [⟨1, 8388096, 1⟩, ⟨1, 8388096, 511⟩] ∧
        ended.map Request.completed = [[[7], nines]] ∧
        rdev' 1 ⟨8388096, by decide⟩ = 9 ∧ rdev' 0 = fun _ => 0 := by
  refine ⟨within_lastSector, ?_⟩
  obtain ⟨visited, last, rdev', segss, ended, hpath, hexit, -, hqueue, -, hcompleted, hranges, -,
    hframe⟩ := req_func_stays_inside (fun _ _ => 0) [lastSector]
      (List.forall_mem_singleton.mpr within_lastSector)
  rw [serveQueue_lastSector] at hqueue
  obtain ⟨rfl, rfl⟩ := Prod.mk.inj (Option.some.inj hqueue)
  refine ⟨visited, last, _, ended, hpath, hexit, ?_, hcompleted, ?_, ?_⟩
  · rw [hranges]
    show [(⟨1, 8388096, 1⟩ : Range 2), ⟨1, 8388096, nines.length⟩] = _
    rw [length_nines]
  · -- the second segment has gone over the byte of the first one
    rw [Function.update_self]
    have hlen : 0 < nines.length := by rw [length_nines]; decide
    exact Region.splice_inside (k := 0) _ hlen (by decide)
  · funext i
    refine hframe 0 i fun req hreq r hr hdev => ?_
    obtain rfl := List.mem_singleton.mp hreq
    have hown := (requestRanges_inside within_lastSector r hr).1
    rw [hown] at hdev
    cases hdev

end KernelLab.RamDisk.RequestFunc
