/-
# `KernelLab.RamDisk.SampleBlk` — the request loop of `sample_blk.c`

One activation of `sampleblk_request` works off the queue.  Its variables are declared
outside the loop:

    rv = 0
    while ((rq = blk_fetch_request(q)))
      pos = blk_rq_pos(rq) * 512;  size = blk_rq_bytes(rq)
      if (pos + size > sampleblk_dev->size)  { rv = -EIO; goto skip; }
      for each segment:  rv = sampleblk_handle_io(..);  pos += bv_len
    skip:
      blk_end_request_all(rq, rv)

`pos` and `size` are set anew for every request, `rv` is not: a request without a
segment is completed with whatever the one before it left there.

## What is proved

`request_own_iff`: every request of a queue is completed as if it were alone, with
status 0 in range and `-EIO` out of it, if and only if no request without segments, in
range, directly follows one that was rejected.

The step is `step_eq`: what a request does to disk and buffers does not depend on `rv`,
and `rv` behind it only on `rv` before it and on the kind of request.

All of the module's arithmetic is 64 bits wide.  The check `BUG_ON` of the request's
device is left out, as the queue is that of the one device.
-/
import KernelLab.RamDisk.MakeRequest

namespace KernelLab.RamDisk.SampleBlk

open KernelLab.Run

def sampleblk_sect_size : Nat := 512

def sampleblk_nsects : Nat := 100 * 1024

/-- `sampleblk_dev->size` -/
def size : Nat := sampleblk_sect_size * sampleblk_nsects

/-- `sampleblk_dev->data` -/
abbrev Data := Region UInt8 size

structure Request where
  /-- `blk_rq_pos` -/
  sector : Nat
  cmd_flags : Nat
  /-- `blk_rq_bytes` -/
  bytes : Nat
  segs : List Segment
  bytes_eq : bytes = total segs

def rq_data_dir (rq : Request) : Nat := rq.cmd_flags % 2

/-! ## The driver -/

/-- The return value, the data and the buffer behind the copy. -/
def sampleblk_handle_io (data : Data) (pos : Nat) (buffer : Segment) (write : Nat) :
    Option (Int × Data × Segment) :=
  if write ≠ 0 then (data.store pos buffer).map fun data => (0, data, buffer)
  else (data.load pos buffer.length).map fun buffer => (0, data, buffer)

/-- `rq_for_each_segment`: `rv`, the data and the buffers at its end. -/
def eachSegment (write : Nat) : Int → Data → Nat → List Segment →
    Option (Int × Data × List Segment)
  | rv, data, _, [] => some (rv, data, [])
  | _, data, pos, seg :: segs =>
      (sampleblk_handle_io data pos seg write).bind fun out =>
        if out.1 < 0 then some (out.1, out.2.1, out.2.2 :: segs)
        else
          (eachSegment write out.1 out.2.1 ((pos + seg.length) % 2 ^ 64) segs).map fun rest =>
            (rest.1, rest.2.1, out.2.2 :: rest.2.2)

/-- At the top of the loop: the device, `rv`, and the requests ended so far. -/
structure State where
  data : Data
  rv : Int
  ended : List Completion

/-- One request.  `none` when a copy leaves the device. -/
def step (s : State) (rq : Request) : Option State :=
  let pos := rq.sector * sampleblk_sect_size % 2 ^ 64
  if (pos + rq.bytes) % 2 ^ 64 > size then
    some { s with rv := - EIO, ended := s.ended ++ [⟨rq.segs, - EIO⟩] }
  else
    (eachSegment (rq_data_dir rq) s.rv s.data pos rq.segs).map fun out =>
      { data := out.2.1, rv := out.1, ended := s.ended ++ [⟨out.2.2, out.1⟩] }

/-- An activation that finds `queue` in the queue. -/
def sampleblk_request (data : Data) (queue : List Request) : Option State :=
  exec step ⟨data, 0, []⟩ queue

/-! ## What is asked of it -/

def InRange (rq : Request) : Prop := rq.sector * sampleblk_sect_size + rq.bytes ≤ size

instance decInRange (rq : Request) : Decidable (InRange rq) :=
  inferInstanceAs (Decidable (_ ≤ _))

/-- The end of the range is a 64-bit number. -/
def Fits (rq : Request) : Prop := rq.sector * sampleblk_sect_size + rq.bytes < 2 ^ 64

/-- The status a request is to be completed with. -/
def status (rq : Request) : Int := if InRange rq then 0 else - EIO

/-- `rq` was completed by `c`, and took the device from `data` to `data'`, as if it were
the only request. -/
structure Alone (data : Data) (rq : Request) (data' : Data) (c : Completion) : Prop where
  status : c.err = status rq
  effect : ∃ s, sampleblk_request data [rq] = some s ∧ s.data = data' ∧
    s.ended.map Completion.segs = [c.segs]
  rejected : ¬ InRange rq → data' = data ∧ c.segs = rq.segs

/-- The whole queue is worked off, each request on its own, on the device its
predecessors left. -/
def OnItsOwn (data : Data) (queue : List Request) : Prop :=
  (∃ s, sampleblk_request data queue = some s) ∧
  ∀ before rq after, queue = before ++ rq :: after → ∃ s₁ s₂ c,
    sampleblk_request data before = some s₁ ∧
    sampleblk_request data (before ++ [rq]) = some s₂ ∧
    s₂.ended = s₁.ended ++ [c] ∧ Alone s₁.data rq s₂.data c

/-- No request in range that has no segment comes directly behind a rejected one. -/
def NoneEmptyBehindRejected (queue : List Request) : Prop :=
  ∀ before r rq after, queue = before ++ r :: rq :: after → ¬ InRange r →
    ¬ (InRange rq ∧ rq.segs = [])

/-! ## One request -/

/-- The data and the buffers behind the copies of a request in range. -/
def served (write : Nat) : Data → Nat → List Segment → Data × List Segment
  | data, _, [] => (data, [])
  | data, pos, seg :: segs =>
      if write ≠ 0 then
        let out := served write (data.splice pos seg) (pos + seg.length) segs
        (out.1, seg :: out.2)
      else
        let out := served write data (pos + seg.length) segs
        (out.1, data.slice pos seg.length :: out.2)

theorem eachSegment_eq (write : Nat) (rv : Int) (data : Data) {pos : Nat} {segs : List Segment}
    (h : pos + total segs ≤ size) :
    eachSegment write rv data pos segs =
      some (if segs = [] then rv else 0, served write data pos segs) := by
  have hsize : size = 52428800 := rfl
  induction segs generalizing rv data pos with
  | nil => rfl
  | cons seg segs ih =>
      rw [total_cons] at h
      have hpos : (pos + seg.length) % 2 ^ 64 = pos + seg.length := Nat.mod_eq_of_lt (by omega)
      have hrest : pos + seg.length + total segs ≤ size := by omega
      by_cases hw : write ≠ 0
      · have hstore : data.store pos seg = some (data.splice pos seg) :=
          Region.store_of_le (by omega)
        simp only [eachSegment, sampleblk_handle_io, if_pos hw, hstore, Option.map_some,
          Option.bind_some, lt_irrefl, if_false, hpos, ih 0 (data.splice pos seg) hrest, served]
        simp
      · have hload : data.load pos seg.length = some (data.slice pos seg.length) :=
          Region.load_of_le (by omega)
        simp only [eachSegment, sampleblk_handle_io, if_neg hw, hload, Option.map_some,
          Option.bind_some, lt_irrefl, if_false, hpos, ih 0 data hrest, served]
        simp

/-- What a request does to device and buffers. -/
def effect (data : Data) (rq : Request) : Data × List Segment :=
  if InRange rq then served (rq_data_dir rq) data (rq.sector * sampleblk_sect_size) rq.segs
  else (data, rq.segs)

/-- What it does to `rv`. -/
def rvAfter (rv : Int) (rq : Request) : Int :=
  if InRange rq then (if rq.segs = [] then rv else 0) else - EIO

theorem step_eq (s : State) {rq : Request} (hf : Fits rq) :
    step s rq = some ⟨(effect s.data rq).1, rvAfter s.rv rq,
      s.ended ++ [⟨(effect s.data rq).2, rvAfter s.rv rq⟩]⟩ := by
  have hpos : rq.sector * sampleblk_sect_size % 2 ^ 64 = rq.sector * sampleblk_sect_size :=
    Nat.mod_eq_of_lt (Nat.lt_of_le_of_lt (Nat.le_add_right _ _) hf)
  have hsum : (rq.sector * sampleblk_sect_size + rq.bytes) % 2 ^ 64 =
      rq.sector * sampleblk_sect_size + rq.bytes := Nat.mod_eq_of_lt hf
  simp only [step, hpos, hsum, effect, rvAfter]
  by_cases hin : InRange rq
  · have hle : rq.sector * sampleblk_sect_size + total rq.segs ≤ size := rq.bytes_eq ▸ hin
    rw [if_neg (Nat.not_lt.mpr hin), if_pos hin, if_pos hin, eachSegment_eq _ _ _ hle]
    rfl
  · rw [if_pos (Nat.not_le.mp hin), if_neg hin, if_neg hin]

/-! ## The queue -/

/-- `rv` behind a queue. -/
def rvs (queue : List Request) : Int := queue.foldl rvAfter 0

theorem rvs_concat (queue : List Request) (rq : Request) :
    rvs (queue ++ [rq]) = rvAfter (rvs queue) rq := by
  simp [rvs]

theorem request_rv (data : Data) (queue : List Request) (hf : ∀ rq ∈ queue, Fits rq) :
    ∃ s, sampleblk_request data queue = some s ∧ s.rv = rvs queue := by
  induction queue using List.reverseRecOn with
  | nil => exact ⟨_, rfl, rfl⟩
  | append_singleton queue rq ih =>
      obtain ⟨s, hs, hrv⟩ := ih fun r hr => hf r (List.mem_append_left _ hr)
      have hfit := hf rq (List.mem_append_right _ (List.mem_singleton.mpr rfl))
      unfold sampleblk_request at hs ⊢
      rw [exec_concat, hs, Option.bind_some, step_eq s hfit]
      exact ⟨_, rfl, by rw [rvs_concat, hrv]⟩

/-- A request in a queue is as alone as `rv` allows. -/
theorem own_iff_rv (data : Data) {queue : List Request} (hf : ∀ rq ∈ queue, Fits rq) :
    OnItsOwn data queue ↔
      ∀ before rq after, queue = before ++ rq :: after → rvAfter (rvs before) rq = status rq := by
  -- the two states around a request, and its completion
  have hsplit : ∀ before rq after, queue = before ++ rq :: after → ∃ s₁,
      sampleblk_request data before = some s₁ ∧
      sampleblk_request data (before ++ [rq]) = some ⟨(effect s₁.data rq).1,
        rvAfter (rvs before) rq,
        s₁.ended ++ [⟨(effect s₁.data rq).2, rvAfter (rvs before) rq⟩]⟩ := by
    rintro before rq after rfl
    obtain ⟨s₁, hs₁, hrv⟩ := request_rv data before
      fun r hr => hf r (List.mem_append_left _ hr)
    have hfit := hf rq (List.mem_append_right _ List.mem_cons_self)
    refine ⟨s₁, hs₁, ?_⟩
    unfold sampleblk_request at hs₁ ⊢
    rw [exec_concat, hs₁, Option.bind_some, step_eq s₁ hfit, hrv]
  constructor
  · rintro ⟨-, hown⟩ before rq after heq
    obtain ⟨s₁, hs₁, hs₂⟩ := hsplit before rq after heq
    obtain ⟨t₁, t₂, c, ht₁, ht₂, hended, halone⟩ := hown before rq after heq
    obtain rfl := Option.some.inj (hs₁.symm.trans ht₁)
    obtain rfl := Option.some.inj (hs₂.symm.trans ht₂)
    obtain rfl := List.singleton_inj.mp (List.append_cancel_left hended)
    exact halone.status
  · intro hrv
    obtain ⟨s, hs, -⟩ := request_rv data queue hf
    refine ⟨⟨s, hs⟩, ?_⟩
    intro before rq after heq
    obtain ⟨s₁, hs₁, hs₂⟩ := hsplit before rq after heq
    have hfit : Fits rq := hf rq (by rw [heq]; simp)
    refine ⟨s₁, _, _, hs₁, hs₂, rfl, hrv before rq after heq, ?_, ?_⟩
    · refine ⟨⟨(effect s₁.data rq).1, rvAfter 0 rq, [⟨(effect s₁.data rq).2, rvAfter 0 rq⟩]⟩,
        ?_, rfl, rfl⟩
      rw [sampleblk_request, exec, step_eq _ hfit]
      rfl
    · intro hout
      simp only [effect, if_neg hout, and_self]

theorem rvAfter_of_nonempty (rv : Int) {rq : Request} (h : ¬ (InRange rq ∧ rq.segs = [])) :
    rvAfter rv rq = status rq := by
  unfold rvAfter status
  by_cases hin : InRange rq
  · rw [if_pos hin, if_pos hin, if_neg fun hs => h ⟨hin, hs⟩]
  · rw [if_neg hin, if_neg hin]

/-- A request without segments hands on the `rv` it found. -/
theorem rvAfter_of_empty (rv : Int) {rq : Request} (hin : InRange rq) (hs : rq.segs = []) :
    rvAfter rv rq = rv := by
  rw [rvAfter, if_pos hin, if_pos hs]

/-- Behind a rejected request, one without segments inherits the error. -/
theorem not_own_of_empty_behind_rejected (data : Data) (before after : List Request)
    {r rq : Request} (hf : ∀ x ∈ before ++ r :: rq :: after, Fits x) (hr : ¬ InRange r)
    (hin : InRange rq) (hs : rq.segs = []) : ¬ OnItsOwn data (before ++ r :: rq :: after) := by
  intro hown
  have hrv := (own_iff_rv data hf).mp hown (before ++ [r]) rq after (by simp)
  rw [rvs_concat, rvAfter_of_empty _ hin hs, rvAfter_of_nonempty _ fun h => hr h.1] at hrv
  simp only [status, if_neg hr, if_pos hin] at hrv
  exact absurd hrv (by decide)

theorem request_own_iff (data : Data) (queue : List Request) (hf : ∀ rq ∈ queue, Fits rq) :
    OnItsOwn data queue ↔ NoneEmptyBehindRejected queue := by
  constructor
  · rintro hown before r rq after rfl hr ⟨hin, hs⟩
    exact not_own_of_empty_behind_rejected data before after hf hr hin hs hown
  · intro hnone
    rw [own_iff_rv data hf]
    intro before
    -- a request without segments finds the status of its predecessor, which is 0
    induction before using List.reverseRecOn with
    | nil =>
        intro rq after _
        by_cases he : InRange rq ∧ rq.segs = []
        · rw [rvAfter_of_empty _ he.1 he.2, status, if_pos he.1]
          rfl
        · exact rvAfter_of_nonempty _ he
    | append_singleton before r ih =>
        intro rq after heq
        rw [List.append_assoc, List.singleton_append] at heq
        by_cases he : InRange rq ∧ rq.segs = []
        · have hr : InRange r := by
            by_contra hr
            exact hnone before r rq after heq hr he
          rw [rvAfter_of_empty _ he.1 he.2, rvs_concat, ih r (rq :: after) heq, status, status,
            if_pos hr, if_pos he.1]
        · exact rvAfter_of_nonempty _ he

/-! ## A rejected write and a flush -/

/-- One sector behind the end. -/
def beyondEnd : Request where
  sector := 102400
  cmd_flags := WRITE
  bytes := 512
  segs := [List.replicate 512 1]
  bytes_eq := by rw [total_cons, List.length_replicate, total_nil]

/-- No data, as a flush has none. -/
def flush : Request := ⟨0, WRITE, 0, [], rfl⟩

theorem fits_pair : ∀ rq ∈ [beyondEnd, flush], Fits rq := by
  intro rq hrq
  rcases List.mem_pair.mp hrq with rfl | rfl
  · unfold Fits beyondEnd
    decide
  · unfold Fits flush
    decide

theorem flush_inherits_error :
    (∀ rq ∈ [beyondEnd, flush], Fits rq) ∧ ¬ OnItsOwn (fun _ => 0) [beyondEnd, flush] := by
  refine ⟨fits_pair, ?_⟩
  have hout : ¬ InRange beyondEnd := by
    unfold InRange beyondEnd
    decide
  have hin : InRange flush := Nat.zero_le _
  exact not_own_of_empty_behind_rejected _ [] [] fits_pair hout hin rfl

theorem request_own_flush_first :
    (∀ rq ∈ [flush, beyondEnd], Fits rq) ∧ OnItsOwn (fun _ => 0) [flush, beyondEnd] := by
  have hf : ∀ rq ∈ [flush, beyondEnd], Fits rq := fun rq hrq =>
    fits_pair rq (List.mem_pair.mpr (List.mem_pair.mp hrq).symm)
  have hin : InRange flush := Nat.zero_le _
  refine ⟨hf, (request_own_iff _ _ hf).mpr ?_⟩
  intro before r rq after heq hr
  cases before with
  | nil => exact absurd ((List.cons.inj heq).1 ▸ hin) hr
  | cons x before =>
      have hlen := congrArg List.length heq
      simp only [List.length_append, List.length_cons, List.length_nil] at hlen
      omega

end KernelLab.RamDisk.SampleBlk
