/-
# `KernelLab.RamDisk.Interleave` — bios in flight at the same time

`ramhd_make_request` takes no lock.  Several calls on one device run their segment loops
against the same memory, each with a pointer of its own; a step here is one `memcpy` of
one of them.

    step i      the next segment of bio i, between data + pRHdata and its buffer

The bios have no buffer in common: each call works on the segments of its own bio.
That this is the loop of `ramhd_make_request`, cut into its iterations, is
`exec_walk`: a bio that takes all its steps in a row does what the call does.

## What is proved

`interleaving_eq_sequential`: let no write overlap any other bio.  Then no step of any
interleaving leaves the device, and every interleaving that completes the bios ends
with the memory and the buffers that the calls leave one after the other, in whatever
order.

The invariant `Inv` gives the memory in the middle of a run: the part a write has done
holds its bytes, everything else is as it was at the start.  At the end there is
nothing in it that could depend on the order, and a run of whole calls is an
interleaving as well.
-/
import KernelLab.RamDisk.MakeRequest

namespace KernelLab.RamDisk.Interleave

open KernelLab.Run

variable {N : Nat} {ι : Type}

/-- One call inside its segment loop. -/
structure Walk where
  pRHdata : Nat
  left : List Segment
  /-- the buffers of the segments behind it -/
  done : List Segment

structure State (N : Nat) (ι : Type) where
  rdev : Devices N
  walk : ι → Walk

/-- A call on a bio in range, at the top of its loop. -/
def enter (bio : Bio N) : Walk := ⟨byteOffset bio, bio.segs, []⟩

def start (rdev : Devices N) (bios : ι → Bio N) : State N ι := ⟨rdev, fun i => enter (bios i)⟩

/-- Every call has come to its end. -/
def Finished (s : State N ι) : Prop := ∀ i, (s.walk i).left = []

/-- The two bios have a byte of the device in common. -/
def Overlap (a b : Bio N) : Prop :=
  ∃ x, (a.bi_sector * RAMHD_SECTOR_SIZE ≤ x ∧ x < a.bi_sector * RAMHD_SECTOR_SIZE + a.bi_size) ∧
    b.bi_sector * RAMHD_SECTOR_SIZE ≤ x ∧ x < b.bi_sector * RAMHD_SECTOR_SIZE + b.bi_size

variable [DecidableEq ι] (bios : ι → Bio N)

/-- One iteration of the loop of bio `i`; `none` when it has none left, or when the copy
leaves the device. -/
def step (s : State N ι) (i : ι) : Option (State N ι) :=
  let w := s.walk i
  let bio := bios i
  match w.left with
  | [] => none
  | seg :: segs =>
      if bio_data_dir bio = READ then
        ((s.rdev bio.bi_bdev).load w.pRHdata seg.length).map fun bytes =>
          { s with
            walk := Function.update s.walk i ⟨w.pRHdata + seg.length, segs, w.done ++ [bytes]⟩ }
      else if bio_data_dir bio = WRITE then
        ((s.rdev bio.bi_bdev).store w.pRHdata seg).map fun disk =>
          { rdev := Function.update s.rdev bio.bi_bdev disk
            walk := Function.update s.walk i ⟨w.pRHdata + seg.length, segs, w.done ++ [seg]⟩ }
      else
        -- `default: goto out`
        some { s with walk := Function.update s.walk i ⟨w.pRHdata, [], w.done ++ seg :: segs⟩ }

theorem step_read {s : State N ι} {i : ι} {seg bytes : Segment} {segs : List Segment}
    (hd : bio_data_dir (bios i) = READ) (hl : (s.walk i).left = seg :: segs)
    (hload : (s.rdev (bios i).bi_bdev).load (s.walk i).pRHdata seg.length = some bytes) :
    step bios s i = some { s with
      walk := Function.update s.walk i
        ⟨(s.walk i).pRHdata + seg.length, segs, (s.walk i).done ++ [bytes]⟩ } := by
  simp only [step, hl, if_pos hd, hload, Option.map_some]

theorem step_write {s : State N ι} {i : ι} {seg : Segment} {segs : List Segment} {disk : Disk}
    (hd : bio_data_dir (bios i) = WRITE) (hl : (s.walk i).left = seg :: segs)
    (hstore : (s.rdev (bios i).bi_bdev).store (s.walk i).pRHdata seg = some disk) :
    step bios s i = some
      { rdev := Function.update s.rdev (bios i).bi_bdev disk
        walk := Function.update s.walk i
          ⟨(s.walk i).pRHdata + seg.length, segs, (s.walk i).done ++ [seg]⟩ } := by
  have hnr : bio_data_dir (bios i) ≠ READ := by rw [hd]; decide
  simp only [step, hl, if_neg hnr, if_pos hd, hstore, Option.map_some]

/-! ## The steps of one call in a row -/

/-- A call that takes its steps in a row computes `segmentLoop`. -/
theorem exec_walk {i : ι} (left : List Segment) :
    ∀ {s : State N ι} {p : Nat} {done segs' : List Segment} {disk' : Disk},
      s.walk i = ⟨p, left, done⟩ →
      segmentLoop (bio_data_dir (bios i)) (s.rdev (bios i).bi_bdev) p left = some (disk', segs') →
      exec (step bios) s (List.replicate left.length i) = some
        ⟨Function.update s.rdev (bios i).bi_bdev disk',
          Function.update s.walk i ⟨p + total left, [], done ++ segs'⟩⟩ := by
  induction left with
  | nil =>
      intro s p done segs' disk' hw hloop
      obtain ⟨rfl, rfl⟩ := Prod.mk.inj (Option.some.inj hloop)
      rw [total_nil, List.append_nil, Nat.add_zero, ← hw, Function.update_eq_self,
        Function.update_eq_self]
      rfl
  | cons seg left ih =>
      intro s p done segs' disk' hw hloop
      have hl : (s.walk i).left = seg :: left := by rw [hw]
      have hp : (s.walk i).pRHdata = p := by rw [hw]
      have hdone : (s.walk i).done = done := by rw [hw]
      rw [List.length_cons, List.replicate_succ, exec]
      rcases dir_cases (bios i) with hd | hd
      · rw [segmentLoop, if_pos hd] at hloop
        obtain ⟨bytes, hload, hrest⟩ := Option.bind_eq_some_iff.mp hloop
        obtain ⟨⟨disk₁, segs₁⟩, hloop₁, heq⟩ := Option.map_eq_some_iff.mp hrest
        obtain ⟨rfl, rfl⟩ := Prod.mk.inj heq
        let s₁ : State N ι :=
          ⟨s.rdev, Function.update s.walk i ⟨p + seg.length, left, done ++ [bytes]⟩⟩
        have hw₁ : s₁.walk i = ⟨p + seg.length, left, done ++ [bytes]⟩ := Function.update_self ..
        rw [step_read bios hd hl (by rw [hp]; exact hload), Option.bind_some, hp, hdone,
          ih hw₁ hloop₁]
        simp [s₁, Nat.add_assoc]
      · have hnr : bio_data_dir (bios i) ≠ READ := by rw [hd]; decide
        rw [segmentLoop, if_neg hnr, if_pos hd] at hloop
        obtain ⟨disk, hstore, hrest⟩ := Option.bind_eq_some_iff.mp hloop
        obtain ⟨⟨disk₁, segs₁⟩, hloop₁, heq⟩ := Option.map_eq_some_iff.mp hrest
        obtain ⟨rfl, rfl⟩ := Prod.mk.inj heq
        let s₁ : State N ι := ⟨Function.update s.rdev (bios i).bi_bdev disk,
          Function.update s.walk i ⟨p + seg.length, left, done ++ [seg]⟩⟩
        have hw₁ : s₁.walk i = ⟨p + seg.length, left, done ++ [seg]⟩ := Function.update_self ..
        have hdisk : s₁.rdev (bios i).bi_bdev = disk := Function.update_self ..
        rw [step_write bios hd hl (by rw [hp]; exact hstore), Option.bind_some, hp, hdone,
          ih hw₁ (by rw [hdisk]; exact hloop₁)]
        simp [s₁, Nat.add_assoc]

/-- The calls of `order` one after the other are an interleaving. -/
theorem exec_order (hin : ∀ i, InRange (bios i)) {order : List ι} (hnd : order.Nodup) :
    ∀ (s : State N ι) (log : List Completion), (∀ i ∈ order, s.walk i = enter (bios i)) →
      ∃ s', exec (step bios) s
          (order.flatMap fun i => List.replicate (bios i).segs.length i) = some s' ∧
        exec RamDisk.step (s.rdev, log) (order.map bios) =
          some (s'.rdev, log ++ order.map fun i => ⟨(s'.walk i).done, 0⟩) ∧
        (∀ i ∈ order, (s'.walk i).left = []) ∧ ∀ i ∉ order, s'.walk i = s.walk i := by
  induction order with
  | nil =>
      intro s log _
      exact ⟨s, rfl, by simp, by simp, fun _ _ => rfl⟩
  | cons i order ih =>
      intro s log hs
      obtain ⟨hi, hnd'⟩ := List.nodup_cons.mp hnd
      obtain ⟨⟨disk', segs'⟩, hloop⟩ := segmentLoop_inRange (s.rdev (bios i).bi_bdev) (hin i)
      let s₁ : State N ι := ⟨Function.update s.rdev (bios i).bi_bdev disk',
        Function.update s.walk i ⟨byteOffset (bios i) + total (bios i).segs, [], segs'⟩⟩
      have hwalk : exec (step bios) s (List.replicate (bios i).segs.length i) = some s₁ :=
        exec_walk bios (bios i).segs (hs i List.mem_cons_self) hloop
      have hother₁ : ∀ j, j ≠ i → s₁.walk j = s.walk j := fun j hj => Function.update_of_ne hj _ _
      -- the other calls of the order have not taken a step
      have hrest : ∀ j ∈ order, s₁.walk j = enter (bios j) := by
        intro j hj
        have hji : j ≠ i := by
          rintro rfl
          exact hi hj
        rw [hother₁ j hji]
        exact hs j (List.mem_cons_of_mem _ hj)
      obtain ⟨s', hexec, hseq, hleft, hother⟩ := ih hnd' s₁ (log ++ [⟨segs', 0⟩]) hrest
      have hwi : s'.walk i = ⟨byteOffset (bios i) + total (bios i).segs, [], segs'⟩ :=
        (hother i hi).trans (Function.update_self ..)
      refine ⟨s', ?_, ?_, ?_, ?_⟩
      · rw [List.flatMap_cons, exec_append, hwalk, Option.bind_some, hexec]
      · rw [List.map_cons, exec, RamDisk.step, make_request_inRange s.rdev (hin i), hloop]
        simp only [Option.map_some, Option.bind_some]
        rw [hseq, List.map_cons, hwi]
        simp
      · intro j hj
        rcases List.mem_cons.mp hj with rfl | hj
        · rw [hwi]
        · exact hleft j hj
      · intro j hj
        rw [List.mem_cons, not_or] at hj
        rw [hother j hj.2, hother₁ j hj.1]

/-! ## The middle of a run -/

theorem total_concat (segs : List Segment) (seg : Segment) :
    total (segs ++ [seg]) = total segs + seg.length := by
  rw [total_append, total_cons, total_nil, Nat.add_zero]

/-- A call that has dealt with the segments `fin`. -/
structure Progress (disk₀ : Disk) (bio : Bio N) (w : Walk) (fin : List Segment) : Prop where
  segs : bio.segs = fin ++ w.left
  pRHdata : w.pRHdata = bio.bi_sector * RAMHD_SECTOR_SIZE + total fin
  done : w.done = if bio_data_dir bio = WRITE then fin
    else filled disk₀ (bio.bi_sector * RAMHD_SECTOR_SIZE) fin

/-- The memory of the device, when each call has dealt with the segments `fin i`. -/
structure Inv (dev : Fin N) (rdev₀ : Devices N) (fin : ι → List Segment) (s : State N ι) :
    Prop where
  walk : ∀ i, Progress (rdev₀ dev) (bios i) (s.walk i) (fin i)
  written : ∀ i, bio_data_dir (bios i) = WRITE →
    (s.rdev dev).slice ((bios i).bi_sector * RAMHD_SECTOR_SIZE) (total (fin i)) = (fin i).flatten
  untouched : ∀ x : Fin RAMHD_SIZE,
    (∀ i, bio_data_dir (bios i) = WRITE → (bios i).bi_sector * RAMHD_SECTOR_SIZE ≤ x →
      (bios i).bi_sector * RAMHD_SECTOR_SIZE + total (fin i) ≤ x) →
    s.rdev dev x = rdev₀ dev x
  others : ∀ j, j ≠ dev → s.rdev j = rdev₀ j

theorem Progress.total_le {disk₀ : Disk} {bio : Bio N} {w : Walk} {fin : List Segment}
    (h : Progress disk₀ bio w fin) : total fin ≤ bio.bi_size := by
  rw [bio.size_eq, h.segs, total_append]
  exact Nat.le_add_right _ _

/-- One segment more, with the buffer it leaves. -/
theorem Progress.next {disk₀ : Disk} {bio : Bio N} {w : Walk} {fin segs : List Segment}
    {seg buf : Segment} (h : Progress disk₀ bio w fin) (hl : w.left = seg :: segs)
    (hbuf : buf = if bio_data_dir bio = WRITE then seg
      else disk₀.slice (bio.bi_sector * RAMHD_SECTOR_SIZE + total fin) seg.length) :
    Progress disk₀ bio ⟨w.pRHdata + seg.length, segs, w.done ++ [buf]⟩ (fin ++ [seg]) := by
  refine ⟨?_, ?_, ?_⟩
  · rw [h.segs, hl, List.append_assoc, List.singleton_append]
  · simp only [h.pRHdata, total_concat]
    omega
  · simp only [h.done, hbuf]
    split
    · rfl
    · rw [filled_concat]

omit [DecidableEq ι] in
theorem inv_start {dev : Fin N} (rdev : Devices N) (hin : ∀ i, InRange (bios i)) :
    Inv bios dev rdev (fun _ => []) (start rdev bios) where
  walk i :=
    { segs := rfl
      pRHdata := by rw [total_nil, Nat.add_zero]; exact byteOffset_eq (hin i).fits
      done := by simp [start, enter, filled] }
  written i _ := by rw [total_nil, Region.slice_zero, List.flatten_nil]
  untouched _ _ := rfl
  others _ _ := rfl

/-- The calls behind a step of call `i`, which takes it to `w`. -/
theorem Inv.walk_update {dev : Fin N} {rdev₀ : Devices N} {fin : ι → List Segment}
    {s : State N ι} {i : ι} {w : Walk} {fin' : List Segment} (h : Inv bios dev rdev₀ fin s)
    (hw : Progress (rdev₀ dev) (bios i) w fin') (j : ι) :
    Progress (rdev₀ dev) (bios j) (Function.update s.walk i w j)
      (Function.update fin i fin' j) := by
  by_cases hji : j = i
  · subst hji
    rw [Function.update_self, Function.update_self]
    exact hw
  · rw [Function.update_of_ne hji, Function.update_of_ne hji]
    exact h.walk j

section Disjoint

variable {bios} {dev : Fin N} {rdev₀ : Devices N}
  (hdev : ∀ i, (bios i).bi_bdev = dev) (hin : ∀ i, InRange (bios i))
  (hdisj : ∀ i j, i ≠ j → bio_data_dir (bios i) = WRITE → ¬ Overlap (bios i) (bios j))
  {fin : ι → List Segment} {s : State N ι} (h : Inv bios dev rdev₀ fin s)
  {i : ι} {seg : Segment} {segs : List Segment} (hl : (s.walk i).left = seg :: segs)

include hin h hl

omit [DecidableEq ι] in
/-- The segment in question is inside the bio, and so on the disk. -/
theorem Inv.next_le : total (fin i) + seg.length ≤ (bios i).bi_size ∧
    (s.walk i).pRHdata + seg.length ≤ RAMHD_SIZE := by
  have hsize : total (fin i) + seg.length ≤ (bios i).bi_size := by
    rw [(bios i).size_eq, (h.walk i).segs, hl, total_append, total_cons]
    omega
  have hle : (bios i).bi_sector * RAMHD_SECTOR_SIZE + (bios i).bi_size ≤ RAMHD_SIZE := hin i
  refine ⟨hsize, ?_⟩
  rw [(h.walk i).pRHdata]
  omega

include hdev hdisj

/-- A read: no write has been where it looks. -/
theorem Inv.advance_read (hd : bio_data_dir (bios i) = READ) :
    ∃ s', step bios s i = some s' ∧
      Inv bios dev rdev₀ (Function.update fin i (fin i ++ [seg])) s' := by
  have hnw : bio_data_dir (bios i) ≠ WRITE := by rw [hd]; decide
  have hne : ∀ j, bio_data_dir (bios j) = WRITE → j ≠ i := by
    rintro j hj rfl
    exact hnw hj
  obtain ⟨hsize, hle⟩ := h.next_le hin hl
  have hslice : (s.rdev dev).slice (s.walk i).pRHdata seg.length =
      (rdev₀ dev).slice ((bios i).bi_sector * RAMHD_SECTOR_SIZE + total (fin i)) seg.length := by
    rw [(h.walk i).pRHdata]
    refine Region.slice_congr ?_
    intro x hlo hhi
    refine h.untouched x ?_
    intro j hj hjx
    by_contra hlt
    have := (h.walk j).total_le
    exact hdisj j i (hne j hj) hj ⟨x, ⟨hjx, by omega⟩, by omega, by omega⟩
  refine ⟨_, step_read bios hd hl (by rw [hdev i]; exact Region.load_of_le hle), ?_⟩
  refine ⟨?_, ?_, ?_, h.others⟩
  · exact h.walk_update bios ((h.walk i).next hl (by rw [if_neg hnw, hslice]))
  · intro j hj
    rw [Function.update_of_ne (hne j hj)]
    exact h.written j hj
  · intro x hx
    refine h.untouched x ?_
    intro j hj hjx
    have := hx j hj hjx
    rwa [Function.update_of_ne (hne j hj)] at this

omit hdev in
/-- What the writes have left on the disk, with one segment more. -/
theorem Inv.written_splice {j : ι} (hj : bio_data_dir (bios j) = WRITE) :
    ((s.rdev dev).splice (s.walk i).pRHdata seg).slice ((bios j).bi_sector * RAMHD_SECTOR_SIZE)
        (total (Function.update fin i (fin i ++ [seg]) j)) =
      (Function.update fin i (fin i ++ [seg]) j).flatten := by
  have hp := (h.walk i).pRHdata
  obtain ⟨hsize, hle⟩ := h.next_le hin hl
  by_cases hji : j = i
  · subst hji
    rw [Function.update_self, total_concat, Region.slice_add, List.flatten_append,
      ← h.written j hj, ← hp, Region.slice_splice _ hle]
    congr 1
    · refine Region.slice_congr fun x _ hx => Region.splice_outside _ (.inl ?_)
      omega
    · simp
  · rw [Function.update_of_ne hji, ← h.written j hj]
    refine Region.slice_congr fun x hlo hhi => Region.splice_outside _ ?_
    by_contra hx
    have := (h.walk j).total_le
    exact hdisj j i hji hj ⟨x, ⟨hlo, by omega⟩, by omega, by omega⟩

omit hdev hdisj hin hl in
/-- What is behind all of the writes is still untouched. -/
theorem Inv.untouched_splice (hd : bio_data_dir (bios i) = WRITE) {x : Fin RAMHD_SIZE}
    (hx : ∀ j, bio_data_dir (bios j) = WRITE → (bios j).bi_sector * RAMHD_SECTOR_SIZE ≤ x →
      (bios j).bi_sector * RAMHD_SECTOR_SIZE +
        total (Function.update fin i (fin i ++ [seg]) j) ≤ x) :
    (s.rdev dev).splice (s.walk i).pRHdata seg x = rdev₀ dev x := by
  have hp := (h.walk i).pRHdata
  have hxi : (x : Nat) < (s.walk i).pRHdata ∨ (s.walk i).pRHdata + seg.length ≤ x := by
    by_contra hmid
    have := hx i hd (by omega)
    rw [Function.update_self, total_concat] at this
    omega
  rw [Region.splice_outside _ hxi]
  refine h.untouched x ?_
  intro j hj hjx
  have := hx j hj hjx
  by_cases hji : j = i
  · subst hji
    rw [Function.update_self, total_concat] at this
    omega
  · rwa [Function.update_of_ne hji] at this

/-- A write: it changes nothing of what the others have done. -/
theorem Inv.advance_write (hd : bio_data_dir (bios i) = WRITE) :
    ∃ s', step bios s i = some s' ∧
      Inv bios dev rdev₀ (Function.update fin i (fin i ++ [seg])) s' := by
  obtain ⟨-, hle⟩ := h.next_le hin hl
  have hstore : (s.rdev (bios i).bi_bdev).store (s.walk i).pRHdata seg =
      some ((s.rdev dev).splice (s.walk i).pRHdata seg) := by
    rw [hdev i]
    exact Region.store_of_le hle
  refine ⟨_, step_write bios hd hl hstore, ?_⟩
  rw [hdev i]
  refine ⟨?_, ?_, ?_, ?_⟩
  · exact h.walk_update bios ((h.walk i).next hl (by rw [if_pos hd]))
  · intro j hj
    simp only [Function.update_self]
    exact h.written_splice hin hdisj hl hj
  · intro x hx
    simp only [Function.update_self]
    exact h.untouched_splice hd hx
  · intro j hj
    simp only [Function.update_of_ne hj]
    exact h.others j hj

/-- Every call that is not at its end can take its next step, and the invariant goes
with it. -/
theorem Inv.advance : ∃ s', step bios s i = some s' ∧
    Inv bios dev rdev₀ (Function.update fin i (fin i ++ [seg])) s' := by
  rcases dir_cases (bios i) with hd | hd
  · exact h.advance_read hdev hin hdisj hl hd
  · exact h.advance_write hdev hin hdisj hl hd

end Disjoint

section Runs

variable {bios} {dev : Fin N} {rdev₀ : Devices N}
  (hdev : ∀ i, (bios i).bi_bdev = dev) (hin : ∀ i, InRange (bios i))
  (hdisj : ∀ i j, i ≠ j → bio_data_dir (bios i) = WRITE → ¬ Overlap (bios i) (bios j))

include hdev hin hdisj

theorem inv_of_exec {es : List ι} {s : State N ι}
    (h : exec (step bios) (start rdev₀ bios) es = some s) : ∃ fin, Inv bios dev rdev₀ fin s := by
  refine invariant (step bios) (I := fun _ s => ∃ fin, Inv bios dev rdev₀ fin s)
    ⟨_, inv_start bios rdev₀ hin⟩ ?_ es s h
  rintro es s i s' ⟨fin, hinv⟩ hstep
  cases hl : (s.walk i).left with
  | nil => simp [step, hl] at hstep
  | cons seg segs =>
      obtain ⟨s₁, hs₁, hinv₁⟩ := hinv.advance hdev hin hdisj hl
      obtain rfl := Option.some.inj (hs₁.symm.trans hstep)
      exact ⟨_, hinv₁⟩

end Runs

/-! ## The end of a run -/

omit [DecidableEq ι] in
/-- Two states in which every call has come to its end are the same. -/
theorem Inv.unique {dev : Fin N} {rdev₀ : Devices N} {fin fin' : ι → List Segment}
    {s s' : State N ι} (hin : ∀ i, InRange (bios i)) (h : Inv bios dev rdev₀ fin s)
    (h' : Inv bios dev rdev₀ fin' s') (hf : Finished s) (hf' : Finished s') :
    s.rdev = s'.rdev ∧ ∀ i, (s.walk i).done = (s'.walk i).done := by
  have hfin : ∀ i, fin i = (bios i).segs := fun i => by rw [(h.walk i).segs, hf i, List.append_nil]
  have hfin' : fin' = fin := funext fun i => by
    rw [hfin, (h'.walk i).segs, hf' i, List.append_nil]
  subst hfin'
  refine ⟨?_, fun i => by rw [(h.walk i).done, (h'.walk i).done]⟩
  funext j
  by_cases hj : j = dev
  · subst hj
    funext x
    by_cases hx : ∃ i, bio_data_dir (bios i) = WRITE ∧
        (bios i).bi_sector * RAMHD_SECTOR_SIZE ≤ x ∧
        (x : Nat) < (bios i).bi_sector * RAMHD_SECTOR_SIZE + total (fin' i)
    · obtain ⟨i, hd, hlo, hhi⟩ := hx
      have hle : (bios i).bi_sector * RAMHD_SECTOR_SIZE + total (fin' i) ≤ RAMHD_SIZE := by
        rw [hfin i]
        exact (hin i).total_le
      have hslice := (h.written i hd).trans (h'.written i hd).symm
      obtain ⟨k, hk⟩ := Nat.exists_eq_add_of_le hlo
      have hcell :
          ((s.rdev j).slice ((bios i).bi_sector * RAMHD_SECTOR_SIZE) (total (fin' i)))[k]? =
          ((s'.rdev j).slice ((bios i).bi_sector * RAMHD_SECTOR_SIZE) (total (fin' i)))[k]? := by
        rw [hslice]
      rw [Region.getElem?_slice _ hle (by omega), Region.getElem?_slice _ hle (by omega)] at hcell
      have hx : x = ⟨(bios i).bi_sector * RAMHD_SECTOR_SIZE + k, hk ▸ x.isLt⟩ := Fin.ext hk
      rw [hx]
      exact Option.some.inj hcell
    · have hout : ∀ i, bio_data_dir (bios i) = WRITE →
          (bios i).bi_sector * RAMHD_SECTOR_SIZE ≤ x →
          (bios i).bi_sector * RAMHD_SECTOR_SIZE + total (fin' i) ≤ x := by
        intro i hd hlo
        by_contra hlt
        exact hx ⟨i, hd, hlo, by omega⟩
      rw [h.untouched x hout, h'.untouched x hout]
  · rw [h.others j hj, h'.others j hj]

theorem interleaving_eq_sequential {dev : Fin N} (rdev : Devices N)
    (hdev : ∀ i, (bios i).bi_bdev = dev) (hin : ∀ i, InRange (bios i))
    (hdisj : ∀ i j, i ≠ j → bio_data_dir (bios i) = WRITE → ¬ Overlap (bios i) (bios j))
    {es : List ι} {s : State N ι} (h : exec (step bios) (start rdev bios) es = some s) :
    (∀ i, (s.walk i).left ≠ [] → ∃ s', step bios s i = some s') ∧
    (Finished s → ∀ order : List ι, order.Nodup → (∀ i, i ∈ order) →
      exec RamDisk.step (rdev, []) (order.map bios) =
        some (s.rdev, order.map fun i => ⟨(s.walk i).done, 0⟩)) := by
  obtain ⟨fin, hinv⟩ := inv_of_exec hdev hin hdisj h
  constructor
  · intro i hleft
    obtain ⟨seg, segs, hl⟩ := List.exists_cons_of_ne_nil hleft
    obtain ⟨s', hs', -⟩ := hinv.advance hdev hin hdisj hl
    exact ⟨s', hs'⟩
  · intro hf order hnd hall
    obtain ⟨s', hexec, hseq, hleft, -⟩ := exec_order bios hin hnd (start rdev bios) []
      fun _ _ => rfl
    obtain ⟨fin', hinv'⟩ := inv_of_exec hdev hin hdisj hexec
    obtain ⟨hrdev, hdone⟩ := hinv.unique bios hin hinv' hf fun i => hleft i (hall i)
    rw [show (rdev, ([] : List Completion)) = ((start rdev bios).rdev, []) from rfl, hseq, hrdev]
    simp only [List.nil_append, hdone]

/-- A write of two segments to sector 3, a read of two segments from sector 4. -/
def writeBesideRead : Bool → Bio 2
  | false => ⟨Fin.last 1, WRITE, 3, 4, [[10, 11], [12, 13]], rfl⟩
  | true => ⟨Fin.last 1, READ, 4, 2, [[7], [7]], rfl⟩

theorem writeBesideRead_apart (i j : Bool) (hij : i ≠ j) :
    ¬ Overlap (writeBesideRead i) (writeBesideRead j) := by
  rintro ⟨x, ⟨hlo, hhi⟩, hlo', hhi'⟩
  cases i <;> cases j <;> simp_all [writeBesideRead, RAMHD_SECTOR_SIZE] <;> omega

theorem interleaving_eq_writeBesideRead :
    ∃ s, exec (step writeBesideRead) (start (ramhd_init 2) writeBesideRead)
        [false, true, false, true] = some s ∧ Finished s ∧
      exec RamDisk.step (ramhd_init 2, []) [writeBesideRead true, writeBesideRead false] =
        some (s.rdev, [⟨(s.walk true).done, 0⟩, ⟨(s.walk false).done, 0⟩]) := by
  have hend : ∃ s, exec (step writeBesideRead) (start (ramhd_init 2) writeBesideRead)
      [false, true, false, true] = some s ∧ Finished s := by
    refine ⟨_, rfl, ?_⟩
    intro i
    cases i <;> rfl
  have hdev : ∀ i, (writeBesideRead i).bi_bdev = Fin.last 1 := by decide
  obtain ⟨s, hs, hf⟩ := hend
  refine ⟨s, hs, hf, ?_⟩
  exact (interleaving_eq_sequential writeBesideRead (ramhd_init 2) hdev (by decide)
    (fun i j hij _ => writeBesideRead_apart i j hij) hs).2 hf [true, false] (by decide) (by decide)

end KernelLab.RamDisk.Interleave
