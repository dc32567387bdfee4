/-
# `KernelLab.CharDev.Misc` — the misc device of `lab-misc.c` as a store with cursors

Any number of files are open on one buffer.  `read` and `write` move the file's
own position and nothing else moves it, so a position starts at zero and is only
ever advanced by a count the driver computed.  That keeps it in
`[0, ramdisk_size]`, and there the arithmetic of `CharDev.Transfer` is exact; the
two facts carry each other through the run.

## What is proved

`mycdev_store`: for every sequence of calls, by any number of files, with any
lengths, where `copy_to_user` may stop behind any prefix and `copy_from_user` does
not fault,

  * no call leaves the buffer, and every position stays in `[0, ramdisk_size]`;
  * a call moves as many bytes as it is asked for and there is room for, less what
    `copy_to_user` does not copy, and returns their number;
  * that is the amount by which it advanced its own file's position, and it moves no
    other;
  * a write that returns `n` replaces exactly the `n` bytes at its old position,
    by the first `n` of its own;
  * a read that returns `n` delivers `n` bytes, each the latest write to its
    offset by any file, and the initial content where there was none.

The writes are read off the calls' own returns, not off the driver's state, so
that the last item compares what callers saw with what callers did.
-/
import KernelLab.Lib.Run
import KernelLab.CharDev.Transfer

namespace KernelLab.CharDev.Misc

open KernelLab.CInt KernelLab.Run

def mycdev_generic_read (ramdisk : Ramdisk) (ppos : Int) (lbuf k : Nat) : Call (List UInt8) :=
  readCall ramdisk ppos lbuf k

def mycdev_generic_write (ramdisk : Ramdisk) (ppos : Int) (buf : List UInt8) (k : Nat) :
    Call Ramdisk :=
  writeCall ramdisk ppos buf k

/-! ## Inside the device, the calls in plain numbers -/

/-- The bytes a call may move at a position on the device. -/
def room (ppos lbuf : Nat) : Nat := min (ramdisk_size - ppos) lbuf

section Inside

variable {ppos : Nat}

theorem room_le (ppos lbuf : Nat) : room ppos lbuf ≤ ramdisk_size - ppos := Nat.min_le_left _ _

theorem bytes_to_do_room (hp : ppos ≤ ramdisk_size) (lbuf : Nat) :
    bytes_to_do ppos lbuf = room ppos lbuf := by
  rw [bytes_to_do_of_le lbuf (by omega) (by omega), room]
  omega

theorem handed_room (hp : ppos ≤ ramdisk_size) (lbuf : Nat) :
    handed ppos lbuf = ⟨ppos, room ppos lbuf⟩ := by
  have hs : ramdisk_size = 65536 := rfl
  have hr := room_le ppos lbuf
  rw [handed, bytes_to_do_room hp, toULong_of_range (by omega) (by omega)]

theorem moved_room (hp : ppos ≤ ramdisk_size) (lbuf k : Nat) :
    moved ppos lbuf k = (min (room ppos lbuf) k : Nat) := by
  rw [moved, handed_room hp, notCopied]
  simp only
  omega

theorem nbytes_room (hp : ppos ≤ ramdisk_size) (lbuf k : Nat) :
    nbytes (bytes_to_do ppos lbuf) k = (min (room ppos lbuf) k : Nat) := by
  have hs : ramdisk_size = 65536 := rfl
  have hmax : MAX_RW_COUNT = 2147479552 := rfl
  have hr := room_le ppos lbuf
  rw [bytes_to_do_room hp, nbytes_eq (by omega) (by omega)]
  omega

theorem ppos_room (hp : ppos ≤ ramdisk_size) (lbuf k : Nat) :
    toLLong (ppos + nbytes (bytes_to_do ppos lbuf) k) = (ppos + min (room ppos lbuf) k : Nat) := by
  have hs : ramdisk_size = 65536 := rfl
  have hr := room_le ppos lbuf
  rw [nbytes_room hp, toLLong_of_range (by omega) (by omega)]
  omega

theorem read_inside (ramdisk : Ramdisk) (hp : ppos ≤ ramdisk_size) (lbuf k : Nat) :
    let call := mycdev_generic_read ramdisk ppos lbuf k
    call.effect = some (ramdisk.slice ppos (min (room ppos lbuf) k)) ∧
      call.ret = (min (room ppos lbuf) k : Nat) ∧
      call.ppos = (ppos + min (room ppos lbuf) k : Nat) := by
  refine ⟨?_, nbytes_room hp lbuf k, ppos_room hp lbuf k⟩
  have hr := room_le ppos lbuf
  have hfetch : fetch ramdisk (handed ppos lbuf) = some (ramdisk.slice ppos (room ppos lbuf)) := by
    rw [handed_room hp, fetch, if_pos (Int.natCast_nonneg ppos)]
    exact Region.load_of_le (show ppos + room ppos lbuf ≤ ramdisk_size by omega)
  show (fetch ramdisk (handed ppos lbuf)).map (List.take (moved ppos lbuf k).toNat) = _
  rw [hfetch, moved_room hp, Option.map_some, Int.toNat_natCast]
  rw [Region.take_slice _ (Nat.min_le_left _ _) (by omega)]

/-- What lands on the device, when the copy stops behind `k` bytes. -/
theorem landed_room (hp : ppos ≤ ramdisk_size) (buf : List UInt8) {k : Nat}
    (hk : k ≤ room ppos buf.length) :
    landed ppos buf k = buf.take k ++ List.replicate (room ppos buf.length - k) 0 := by
  rw [landed, moved_room hp, Nat.min_eq_right hk, handed_room hp, Int.toNat_natCast]
  simp only
  congr 2
  omega

/-- A write whose copy stops behind `k` bytes. -/
theorem write_inside (ramdisk : Ramdisk) (hp : ppos ≤ ramdisk_size) (buf : List UInt8) {k : Nat}
    (hk : k ≤ room ppos buf.length) :
    let call := mycdev_generic_write ramdisk ppos buf k
    call.effect = some (ramdisk.splice ppos
        (buf.take k ++ List.replicate (room ppos buf.length - k) 0)) ∧
      call.ret = k ∧ call.ppos = (ppos + k : Nat) := by
  have hr := room_le ppos buf.length
  have hrl : room ppos buf.length ≤ buf.length := Nat.min_le_right _ _
  refine ⟨?_, ?_, ?_⟩
  · show put ramdisk (handed ppos buf.length) (landed ppos buf k) = _
    rw [handed_room hp, landed_room hp buf hk, put, if_pos (Int.natCast_nonneg ppos)]
    refine Region.store_of_le ?_
    simp only [Int.toNat_natCast, List.length_append, List.length_take, List.length_replicate]
    omega
  · show nbytes (bytes_to_do ppos buf.length) k = _
    rw [nbytes_room hp, Nat.min_eq_right hk]
  · show toLLong (ppos + nbytes (bytes_to_do ppos buf.length) k) = _
    rw [ppos_room hp, Nat.min_eq_right hk]

/-- How far a copy gets that is given a bound it never reaches. -/
theorem write_stops_at_room (ramdisk : Ramdisk) (hp : ppos ≤ ramdisk_size) (buf : List UInt8) :
    mycdev_generic_write ramdisk ppos buf buf.length =
      mycdev_generic_write ramdisk ppos buf (room ppos buf.length) := by
  have hmin : min (room ppos buf.length) buf.length = room ppos buf.length :=
    Nat.min_eq_left (Nat.min_le_right _ _)
  simp only [mycdev_generic_write, writeCall, landed, moved_room hp, nbytes_room hp, hmin,
    Nat.min_self]

/-- A write that meets no fault. -/
theorem write_whole (ramdisk : Ramdisk) (hp : ppos ≤ ramdisk_size) (buf : List UInt8) :
    let call := mycdev_generic_write ramdisk ppos buf buf.length
    call.effect = some (ramdisk.splice ppos (buf.take (room ppos buf.length))) ∧
      call.ret = room ppos buf.length ∧
      call.ppos = (ppos + room ppos buf.length : Nat) := by
  have h := write_inside ramdisk hp buf (Nat.le_refl _)
  rw [Nat.sub_self, List.replicate_zero, List.append_nil] at h
  rw [write_stops_at_room ramdisk hp buf]
  exact h

end Inside

/-! ## Runs -/

/-- A call by a file: a read of `lbuf` bytes whose copy stops behind `k`, or a
write of a buffer. -/
inductive Op (File : Type) where
  | read (f : File) (lbuf k : Nat)
  | write (f : File) (buf : List UInt8)

variable {File : Type}

def Op.file : Op File → File
  | .read f _ _ => f
  | .write f _ => f

def Op.lbuf : Op File → Nat
  | .read _ lbuf _ => lbuf
  | .write _ buf => buf.length

/-- How many bytes a call moves at a position. -/
def Op.count : Op File → Nat → Nat
  | .read _ lbuf k, ppos => min (room ppos lbuf) k
  | .write _ buf, ppos => room ppos buf.length

/-- What a caller can note down about its call: where its file stood, the value
returned, and for a read the bytes delivered. -/
structure Return (File : Type) where
  op : Op File
  pos : Int
  ret : Int
  delivered : List UInt8

structure State (File : Type) where
  ramdisk : Ramdisk
  pos : File → Int
  log : List (Return File)

/-- After `my_generic_init` and the opens: the memory is as `kmalloc` gave it. -/
def opened (ramdisk : Ramdisk) : State File := ⟨ramdisk, fun _ => 0, []⟩

/-- The writes in a log: a write that returned `n` wrote its first `n` bytes. -/
def writes (log : List (Return File)) : List (Region.Write UInt8) :=
  log.filterMap fun r =>
    match r.op with
    | .read .. => none
    | .write _ buf => some ⟨r.pos.toNat, buf.take r.ret.toNat⟩

/-- The value an offset is to have: the latest write to it, or what `kmalloc`
left there. -/
def content (ramdisk : Ramdisk) (log : List (Return File)) : Ramdisk :=
  fun i => (Region.latest (writes log) i).getD (ramdisk i)

theorem content_eq_replay (ramdisk : Ramdisk) (log : List (Return File)) :
    content ramdisk log = ramdisk.replay (writes log) :=
  funext fun i => (Region.replay_apply ramdisk (writes log) i).symm

theorem content_read (ramdisk : Ramdisk) (log : List (Return File)) (f : File) (lbuf k : Nat)
    (pos ret : Int) (bytes : List UInt8) :
    content ramdisk (log ++ [⟨.read f lbuf k, pos, ret, bytes⟩]) = content ramdisk log := by
  funext i
  simp [content, writes, List.filterMap_append]

theorem content_write (ramdisk : Ramdisk) (log : List (Return File)) (f : File)
    (buf : List UInt8) (pos ret : Int) (bytes : List UInt8) :
    content ramdisk (log ++ [⟨.write f buf, pos, ret, bytes⟩]) =
      (content ramdisk log).splice pos.toNat (buf.take ret.toNat) := by
  rw [content_eq_replay, content_eq_replay, writes, List.filterMap_append]
  exact Region.replay_concat _ _ _

/-- What a call does to an array with cursors.  `s` is the state before it, `s'`
behind it, `r` what it returned. -/
structure Performs (ramdisk₀ : Ramdisk) (s : State File) (op : Op File) (s' : State File)
    (r : Return File) : Prop where
  entry : r.op = op ∧ r.pos = s.pos op.file
  logged : s'.log = s.log ++ [r]
  counted : 0 ≤ s.pos op.file ∧ r.ret = op.count (s.pos op.file).toNat
  advance : r.ret = s'.pos op.file - s.pos op.file ∧ 0 ≤ r.ret ∧ r.ret ≤ op.lbuf
  others : ∀ f, f ≠ op.file → s'.pos f = s.pos f
  /-- a write replaces its range by its first bytes -/
  written : ∀ f buf, op = .write f buf → ∀ (j : Nat) (i : Fin ramdisk_size),
    (j : Int) < r.ret → (i : Int) = s.pos f + j → buf[j]? = some (s'.ramdisk i)
  outside : ∀ f buf, op = .write f buf → ∀ i : Fin ramdisk_size,
    ((i : Int) < s.pos f ∨ s.pos f + r.ret ≤ i) → s'.ramdisk i = s.ramdisk i
  /-- a read changes no byte and delivers the latest writes -/
  readOnly : ∀ f lbuf k, op = .read f lbuf k →
    s'.ramdisk = s.ramdisk ∧ (r.delivered.length : Int) = r.ret
  delivers : ∀ f lbuf k, op = .read f lbuf k → ∀ (j : Nat) (i : Fin ramdisk_size),
    (j : Int) < r.ret → (i : Int) = s.pos f + j →
      r.delivered[j]? = some (content ramdisk₀ s.log i)

/-- The invariant: positions on the device, and the buffer as the log has it. -/
structure Tracks (ramdisk₀ : Ramdisk) (s : State File) : Prop where
  pos_range : ∀ f, ∃ p : Nat, s.pos f = p ∧ p ≤ ramdisk_size
  ramdisk_eq : s.ramdisk = content ramdisk₀ s.log

theorem tracks_opened (ramdisk : Ramdisk) : Tracks ramdisk (opened ramdisk : State File) :=
  ⟨fun _ => ⟨0, rfl, Nat.zero_le _⟩, rfl⟩

variable [DecidableEq File]

/-- One call; `none` when its copy leaves the buffer. -/
def step (s : State File) : Op File → Option (State File)
  | .read f lbuf k =>
      let call := mycdev_generic_read s.ramdisk (s.pos f) lbuf k
      call.effect.map fun bytes =>
        { s with
          pos := Function.update s.pos f call.ppos
          log := s.log ++ [⟨.read f lbuf k, s.pos f, call.ret, bytes⟩] }
  | .write f buf =>
      let call := mycdev_generic_write s.ramdisk (s.pos f) buf buf.length
      call.effect.map fun ramdisk =>
        { ramdisk := ramdisk
          pos := Function.update s.pos f call.ppos
          log := s.log ++ [⟨.write f buf, s.pos f, call.ret, []⟩] }

/-- A position moved within the room that is left stays on the device. -/
theorem pos_range_update {s : State File} {ramdisk₀ : Ramdisk} (h : Tracks ramdisk₀ s)
    (f : File) {p : Nat} (hp : p ≤ ramdisk_size) (g : File) :
    ∃ q : Nat, Function.update s.pos f (p : Int) g = q ∧ q ≤ ramdisk_size := by
  by_cases hg : g = f
  · subst hg
    exact ⟨p, Function.update_self .., hp⟩
  · rw [Function.update_of_ne hg]
    exact h.pos_range g

theorem step_read {ramdisk₀ : Ramdisk} {s : State File} (h : Tracks ramdisk₀ s) (f : File)
    (lbuf k : Nat) :
    ∃ s' r, step s (.read f lbuf k) = some s' ∧ Tracks ramdisk₀ s' ∧
      Performs ramdisk₀ s (.read f lbuf k) s' r := by
  obtain ⟨p, hpos, hp⟩ := h.pos_range f
  obtain ⟨heff, hret, hppos⟩ := read_inside s.ramdisk hp lbuf k
  have hr : min (room p lbuf) k ≤ room p lbuf := Nat.min_le_left _ _
  have hrs : room p lbuf ≤ ramdisk_size - p := Nat.min_le_left _ _
  have hrl : room p lbuf ≤ lbuf := Nat.min_le_right _ _
  have hstep : step s (.read f lbuf k) = some
      { s with
        pos := Function.update s.pos f (p + min (room p lbuf) k : Nat)
        log := s.log ++ [⟨.read f lbuf k, p, (min (room p lbuf) k : Nat),
          s.ramdisk.slice p (min (room p lbuf) k)⟩] } := by
    simp only [step, hpos, heff, hret, hppos, Option.map_some]
  refine ⟨_, ⟨.read f lbuf k, p, (min (room p lbuf) k : Nat),
    s.ramdisk.slice p (min (room p lbuf) k)⟩, hstep, ⟨pos_range_update h f (by omega), ?_⟩, ?_⟩
  · show s.ramdisk = content ramdisk₀ (s.log ++ _)
    rw [content_read]
    exact h.ramdisk_eq
  · refine
      { entry := ⟨rfl, hpos.symm⟩
        logged := rfl
        counted := by simp [Op.file, Op.count, hpos]
        advance := ⟨?_, by simp, by simp only [Op.lbuf]; omega⟩
        others := fun g hg => Function.update_of_ne hg _ _
        written := fun _ _ hop => by cases hop
        outside := fun _ _ hop => by cases hop
        readOnly := fun _ _ _ _ => ⟨rfl, by simp only; rw [Region.length_slice _ (by omega)]⟩
        delivers := ?_ }
    · simp only [Op.file, Function.update_self, hpos]
      omega
    · rintro _ _ _ hop j i hj hi
      cases hop
      have hj' : (j : Int) < (min (room p lbuf) k : Nat) := hj
      have hi' : (⟨p + j, by omega⟩ : Fin ramdisk_size) = i := Fin.ext (by simp only; omega)
      rw [Region.getElem?_slice _ (by omega) (by omega), hi', h.ramdisk_eq]

theorem step_write {ramdisk₀ : Ramdisk} {s : State File} (h : Tracks ramdisk₀ s) (f : File)
    (buf : List UInt8) :
    ∃ s' r, step s (.write f buf) = some s' ∧ Tracks ramdisk₀ s' ∧
      Performs ramdisk₀ s (.write f buf) s' r := by
  obtain ⟨p, hpos, hp⟩ := h.pos_range f
  obtain ⟨heff, hret, hppos⟩ := write_whole s.ramdisk hp buf
  have hrs : room p buf.length ≤ ramdisk_size - p := Nat.min_le_left _ _
  have hrl : room p buf.length ≤ buf.length := Nat.min_le_right _ _
  have hlen : (buf.take (room p buf.length)).length = room p buf.length :=
    List.length_take_of_le hrl
  have hstep : step s (.write f buf) = some
      { ramdisk := s.ramdisk.splice p (buf.take (room p buf.length))
        pos := Function.update s.pos f (p + room p buf.length : Nat)
        log := s.log ++ [⟨.write f buf, p, room p buf.length, []⟩] } := by
    simp only [step, hpos, heff, hret, hppos, Option.map_some]
  refine ⟨_, ⟨.write f buf, p, room p buf.length, []⟩, hstep,
    ⟨pos_range_update h f (by omega), ?_⟩, ?_⟩
  · show s.ramdisk.splice p _ = content ramdisk₀ (s.log ++ _)
    rw [content_write, ← h.ramdisk_eq]
    rfl
  · refine
      { entry := ⟨rfl, hpos.symm⟩
        logged := rfl
        counted := by simp [Op.file, Op.count, hpos]
        advance := ⟨?_, by simp, by simp only [Op.lbuf]; omega⟩
        others := fun g hg => Function.update_of_ne hg _ _
        written := ?_
        outside := ?_
        readOnly := fun _ _ _ hop => by cases hop
        delivers := fun _ _ _ hop => by cases hop }
    · simp only [Op.file, Function.update_self, hpos]
      omega
    · rintro _ _ hop j i hj hi
      cases hop
      have hj' : (j : Int) < room p buf.length := hj
      have hi' : i = ⟨p + j, by omega⟩ := Fin.ext (by simp only; omega)
      show buf[j]? = some (s.ramdisk.splice p (buf.take (room p buf.length)) i)
      rw [hi', Region.splice_inside _ (by omega), List.getElem_take,
        List.getElem?_eq_getElem (by omega)]
    · rintro _ _ hop i hi
      cases hop
      have hi' : (i : Int) < s.pos f ∨ s.pos f + room p buf.length ≤ i := hi
      exact Region.splice_outside _ (by rw [hlen]; omega)

theorem step_performs {ramdisk₀ : Ramdisk} {s : State File} (h : Tracks ramdisk₀ s) (op : Op File) :
    ∃ s' r, step s op = some s' ∧ Tracks ramdisk₀ s' ∧ Performs ramdisk₀ s op s' r := by
  cases op with
  | read f lbuf k => exact step_read h f lbuf k
  | write f buf => exact step_write h f buf

/-- Every run of calls is accepted and tracked. -/
theorem exec_tracks (ramdisk₀ : Ramdisk) (ops : List (Op File)) :
    ∃ s, exec step (opened ramdisk₀) ops = some s ∧ Tracks ramdisk₀ s := by
  induction ops using List.reverseRecOn with
  | nil => exact ⟨_, rfl, tracks_opened ramdisk₀⟩
  | append_singleton ops op ih =>
      obtain ⟨s, hs, ht⟩ := ih
      obtain ⟨s', -, hstep, ht', -⟩ := step_performs ht op
      exact ⟨s', by rw [exec_concat, hs]; exact hstep, ht'⟩

theorem mycdev_store (ramdisk₀ : Ramdisk) (ops : List (Op File)) :
    ∃ s, exec step (opened ramdisk₀) ops = some s ∧
      (∀ f, 0 ≤ s.pos f ∧ s.pos f ≤ ramdisk_size) ∧
      ∀ before op after, ops = before ++ op :: after → ∃ s₁ s₂ r,
        exec step (opened ramdisk₀) before = some s₁ ∧
        exec step (opened ramdisk₀) (before ++ [op]) = some s₂ ∧
        Performs ramdisk₀ s₁ op s₂ r := by
  obtain ⟨s, hs, ht⟩ := exec_tracks ramdisk₀ ops
  refine ⟨s, hs, fun f => ?_, ?_⟩
  · obtain ⟨p, hp, hle⟩ := ht.pos_range f
    omega
  · rintro before op after rfl
    obtain ⟨s₁, hs₁, ht₁⟩ := exec_tracks ramdisk₀ before
    obtain ⟨s₂, r, hstep, -, hperf⟩ := step_performs ht₁ op
    exact ⟨s₁, s₂, r, hs₁, by rw [exec_concat, hs₁]; exact hstep, hperf⟩

/-- Two files: one writes, the other reads what it wrote and is cut short. -/
def writeThenRead : List (Op Bool) := [.write true [72, 105], .read false 8 1, .read false 8 8]

theorem mycdev_store_writeThenRead :
    ∃ s, exec step (opened fun _ => 0) writeThenRead = some s ∧
      (∀ f, 0 ≤ s.pos f ∧ s.pos f ≤ ramdisk_size) ∧ s.pos true = 2 ∧ s.pos false = 9 ∧
      s.log.map Return.delivered = [[], [72], [105, 0, 0, 0, 0, 0, 0, 0]] := by
  obtain ⟨s, hs, hrange, -⟩ := mycdev_store (fun _ => 0) writeThenRead
  have hfacts : (exec step (opened fun _ => 0) writeThenRead).map
      (fun s => (s.pos true, s.pos false, s.log.map Return.delivered)) =
        some (2, 9, [[], [72], [105, 0, 0, 0, 0, 0, 0, 0]]) := by
    decide
  rw [hs, Option.map_some, Option.some.injEq, Prod.mk.injEq, Prod.mk.injEq] at hfacts
  exact ⟨s, hs, hrange, hfacts⟩

end KernelLab.CharDev.Misc
