/-
# `KernelLab.RamDisk.Load.SampleBlk` — loading `sample_blk.c`

`sampleblk_alloc` checks every answer and unwinds what it has; the labels of its `goto`s
are functions here, each falling into the next.

    fail_queue   blk_cleanup_queue
    fail_data    vfree
    fail_dev     kfree

Its result is logged by `sampleblk_init`, which returns 0 all the same.  `sampleblk_dev`
still points at the freed object then, and `sampleblk_exit` goes there.

## What is proved

`clean_iff`: clean iff `register_blkdev` fails, or nothing does.  The stages of the
allocation are followed one by one (`diskPart_outcome` to `alloc_outcome`): the device is
complete, or its object is gone.
-/
import KernelLab.RamDisk.Load.Kernel
import KernelLab.RamDisk.SampleBlk

namespace KernelLab.RamDisk.Load

open KernelLab.Run

namespace Sample

def SAMPLEBLK_MINOR : Nat := 1

structure SampleblkDev where
  minor : Nat
  queue : Ptr Unit
  disk : Ptr Unit
  size : Nat
  data : Ptr Unit

structure Static where
  sampleblk_major : Int
  sampleblk_dev : Ptr Unit

abbrev Sampleblk := Kernel Static Unit SampleblkDev

def unloaded : Sampleblk where
  glob := ⟨0, none⟩
  dev _ := ⟨0, none, none, 0, none⟩
  gendisk _ := ⟨0, 0, none, none⟩
  ledger := .empty

/-- An assignment to fields of `*sampleblk_dev`. -/
def assign (k : Sampleblk) (f : SampleblkDev → SampleblkDev) : Option Sampleblk := do
  let d ← k.ledger.deref .dev k.glob.sampleblk_dev
  some { k with dev := Function.update k.dev d (f (k.dev d)) }

def fail_dev (rv : Int) (k : Sampleblk) : Option (Int × Sampleblk) := do
  let k ← k.free .dev k.glob.sampleblk_dev
  some (rv, k)

def fail_data (rv : Int) (k : Sampleblk) : Option (Int × Sampleblk) := do
  let d ← k.ledger.deref .dev k.glob.sampleblk_dev
  let k ← k.free .data (k.dev d).data
  fail_dev rv k

def fail_queue (rv : Int) (k : Sampleblk) : Option (Int × Sampleblk) := do
  let d ← k.ledger.deref .dev k.glob.sampleblk_dev
  let k ← k.blk_cleanup_queue (k.dev d).queue
  fail_data rv k

/-- `sampleblk_alloc` once it has a queue. -/
def diskPart (c : Calls Unit) (minor : Nat) (queue : Ptr Unit) (k : Sampleblk) :
    Option (Int × Sampleblk) := do
  -- `blk_set_stacking_limits`
  let _ ← k.ledger.deref .queue queue
  let disk := answer c.alloc_disk ()
  let k := k.got .disk disk
  if disk = none then fail_queue (- ENOMEM) k
  else
    let k ← assign k fun dev => { dev with disk := disk }
    let g ← k.ledger.deref .disk disk
    let k := { k with
      gendisk := Function.update k.gendisk g
        ⟨k.glob.sampleblk_major, minor, queue, k.glob.sampleblk_dev⟩ }
    let k ← k.add_disk disk
    some (0, k)

/-- `sampleblk_alloc` once it has its memory. -/
def queuePart (c : Calls Unit) (minor : Nat) (k : Sampleblk) : Option (Int × Sampleblk) := do
  let queue := answer c.queue ()
  let k ← assign (k.got .queue queue) fun dev => { dev with minor := minor, queue := queue }
  if queue = none then fail_data (- ENOMEM) k else diskPart c minor queue k

/-- `sampleblk_alloc` once it has its object. -/
def dataPart (c : Calls Unit) (minor : Nat) (k : Sampleblk) : Option (Int × Sampleblk) := do
  let data := answer c.vmalloc ()
  let k ← assign (k.got .data data) fun dev => { dev with size := SampleBlk.size, data := data }
  if data = none then fail_dev (- ENOMEM) k else queuePart c minor k

def sampleblk_alloc (c : Calls Unit) (minor : Nat) (k : Sampleblk) : Option (Int × Sampleblk) :=
  let dev := answer c.kzalloc ()
  let k := { k with glob := { k.glob with sampleblk_dev := dev } }.got .dev dev
  if dev = none then some (- ENOMEM, k) else dataPart c minor k

def sampleblk_free (sampleblk_dev : Ptr Unit) (k : Sampleblk) : Option Sampleblk := do
  let d ← k.ledger.deref .dev sampleblk_dev
  let k ← k.del_gendisk (k.dev d).disk
  let k ← k.blk_cleanup_queue (k.dev d).queue
  let k ← k.put_disk (k.dev d).disk
  let k ← k.free .data (k.dev d).data
  k.free .dev sampleblk_dev

def sampleblk_init (c : Calls Unit) : Option (Int × Sampleblk) :=
  let k := unloaded.register_blkdev c
  let k := { k with glob := { k.glob with sampleblk_major := c.register_blkdev } }
  if k.glob.sampleblk_major < 0 then some (k.glob.sampleblk_major, k)
  -- `rv` is logged and not returned
  else (sampleblk_alloc c SAMPLEBLK_MINOR k).map fun out => (0, out.2)

def sampleblk_exit (k : Sampleblk) : Option Sampleblk := do
  let k ← sampleblk_free k.glob.sampleblk_dev k
  k.unregister_blkdev

structure SetUp (k : Sampleblk) : Prop where
  sampleblk_dev : k.glob.sampleblk_dev = some ()
  dev : k.dev () = ⟨SAMPLEBLK_MINOR, some (), some (), SampleBlk.size, some ()⟩
  gendisk : k.gendisk () = ⟨k.glob.sampleblk_major, SAMPLEBLK_MINOR, some (), some ()⟩
  live : ∀ r, k.ledger.live r = true

end Sample

def sampleBlk (c : Calls Unit) : Loadable Sample.Sampleblk (Res Unit) :=
  ⟨Sample.sampleblk_init c, Sample.sampleblk_exit, Kernel.ledger, Sample.SetUp⟩

/-! ## Stage by stage -/

namespace Sample

/-- `sampleblk_dev` points at its object. -/
structure Alive (k : Sampleblk) : Prop where
  ptr : k.glob.sampleblk_dev = some ()
  live : k.ledger.live (.dev ()) = true

theorem Alive.got {k : Sampleblk} (h : Alive k) (kind : Unit → Res Unit) (p : Ptr Unit) :
    Alive (k.got kind p) := by
  cases p with
  | none => exact h
  | some a => exact ⟨h.ptr, (Ledger.live_take ..).mpr (.inr h.live)⟩

theorem assign_eq {k : Sampleblk} (h : Alive k) (f : SampleblkDev → SampleblkDev) :
    assign k f = some { k with dev := Function.update k.dev () (f (k.dev ())) } := by
  simp [assign, h.ptr, Ledger.deref_some h.live]

/-- The load has come to nothing: `-ENOMEM`, and the object is freed or was never there. -/
def Failed (out : Option (Int × Sampleblk)) : Prop :=
  ∃ k, out = some (- ENOMEM, k) ∧ k.ledger.live (.dev ()) = false

theorem fail_dev_failed {k : Sampleblk} (h : Alive k) : Failed (fail_dev (- ENOMEM) k) := by
  simp [Failed, fail_dev, Kernel.free, h.ptr, Kernel.release, Ledger.release_of_live h.live]

theorem fail_data_failed {k : Sampleblk} (h : Alive k) (hd : (k.dev ()).data = some ())
    (hl : k.ledger.live (.data ()) = true) : Failed (fail_data (- ENOMEM) k) := by
  obtain ⟨L, hL⟩ : ∃ L, k.ledger.release (.data ()) = some L := ⟨_, Ledger.release_of_live hl⟩
  have halive : Alive { k with ledger := L } :=
    ⟨h.ptr, (Ledger.live_release hL (by simp)).trans h.live⟩
  simp only [fail_data, h.ptr, Ledger.deref_some h.live, Kernel.free, hd, Kernel.release, hL,
    Option.map_some, Option.bind_eq_bind, Option.bind_some]
  exact fail_dev_failed halive

theorem fail_queue_failed {k : Sampleblk} (h : Alive k) (hd : (k.dev ()).data = some ())
    (hl : k.ledger.live (.data ()) = true) (hq : (k.dev ()).queue = some ())
    (hlq : k.ledger.live (.queue ()) = true) : Failed (fail_queue (- ENOMEM) k) := by
  obtain ⟨L, hL⟩ : ∃ L, k.ledger.release (.queue ()) = some L := ⟨_, Ledger.release_of_live hlq⟩
  have halive : Alive { k with ledger := L } :=
    ⟨h.ptr, (Ledger.live_release hL (by simp)).trans h.live⟩
  simp only [fail_queue, h.ptr, Ledger.deref_some h.live, Kernel.blk_cleanup_queue, hq,
    Ledger.deref_some hlq, Kernel.release, hL, Option.map_some, Option.bind_eq_bind,
    Option.bind_some]
  exact fail_data_failed halive hd ((Ledger.live_release hL (by simp)).trans hl)

/-- A stage of the load that depends on `ok`. -/
def Outcome (ok : Prop) (out : Option (Int × Sampleblk)) : Prop :=
  (ok → ∃ k, out = some (0, k) ∧ SetUp k) ∧ (¬ ok → Failed out)

theorem diskPart_outcome {c : Calls Unit} {k : Sampleblk} (h : Alive k)
    (hdev : k.dev () = ⟨SAMPLEBLK_MINOR, some (), none, SampleBlk.size, some ()⟩)
    (hlive : ∀ r, r ≠ .disk () → r ≠ .added () → k.ledger.live r = true) :
    Outcome (c.alloc_disk () = true) (diskPart c SAMPLEBLK_MINOR (some ()) k) := by
  have hq : k.ledger.live (.queue ()) = true := hlive _ (by simp) (by simp)
  constructor
  · intro hok
    have hdisk : (k.ledger.take (.disk ())).live (.disk ()) = true :=
      (Ledger.live_take ..).mpr (.inl rfl)
    have hqueue : (k.ledger.take (.disk ())).live (.queue ()) = true :=
      (Ledger.live_take ..).mpr (.inr hq)
    refine ⟨{ k with
      dev := Function.update k.dev () { k.dev () with disk := some () }
      gendisk := Function.update k.gendisk ()
        ⟨k.glob.sampleblk_major, SAMPLEBLK_MINOR, some (), some ()⟩
      ledger := (k.ledger.take (.disk ())).take (.added ()) }, ?_, ?_⟩
    · simp only [diskPart, Ledger.deref_some hq, answer_ok hok, reduceCtorEq, if_false,
        assign_eq (h.got .disk _), Option.bind_eq_bind, Option.bind_some]
      simp [Kernel.got, Ledger.deref_some hdisk, Kernel.add_disk, Ledger.deref_some hqueue, h.ptr]
    · refine ⟨h.ptr, by simp [hdev], by simp, ?_⟩
      intro r
      rw [Ledger.live_take, Ledger.live_take]
      by_cases ha : r = .added ()
      · exact .inl ha
      · by_cases hd : r = .disk ()
        · exact .inr (.inl hd)
        · exact .inr (.inr (hlive r hd ha))
  · intro hno
    have hnull : answer c.alloc_disk () = none := answer_null (by simpa using hno)
    simp only [diskPart, Ledger.deref_some hq, hnull, if_true, Option.bind_eq_bind,
      Option.bind_some]
    exact fail_queue_failed h (congrArg SampleblkDev.data hdev) (hlive _ (by simp) (by simp))
      (congrArg SampleblkDev.queue hdev) hq

/-- A first call answers `ok₁`; the rest is up to `ok₂`. -/
theorem Outcome.and {ok₁ : Bool} {ok₂ : Prop} {out : Option (Int × Sampleblk)}
    (hno : ok₁ = false → Failed out) (hyes : ok₁ = true → Outcome ok₂ out) :
    Outcome (ok₁ = true ∧ ok₂) out := by
  cases ok₁ with
  | false => exact ⟨fun h => absurd h.1 (by simp), fun _ => hno rfl⟩
  | true =>
      obtain ⟨hok, hfail⟩ := hyes rfl
      exact ⟨fun h => hok h.2, fun h => hfail fun h₂ => h ⟨rfl, h₂⟩⟩

theorem queuePart_outcome {c : Calls Unit} {k : Sampleblk} (h : Alive k)
    (hdev : k.dev () = ⟨0, none, none, SampleBlk.size, some ()⟩)
    (hlive : ∀ r, r ≠ .queue () → r ≠ .disk () → r ≠ .added () → k.ledger.live r = true) :
    Outcome (c.queue () = true ∧ c.alloc_disk () = true) (queuePart c SAMPLEBLK_MINOR k) := by
  simp only [queuePart, assign_eq (h.got .queue _), Option.bind_eq_bind, Option.bind_some]
  refine .and ?_ ?_
  · intro hno
    rw [if_pos (answer_null hno), answer_null hno]
    refine fail_data_failed ⟨h.ptr, h.live⟩ ?_ (hlive _ (by simp) (by simp) (by simp))
    simp [Kernel.got, hdev]
  · intro hok
    rw [if_neg (by simp [answer_ok hok]), answer_ok hok]
    refine diskPart_outcome ⟨h.ptr, (h.got .queue (some ())).live⟩ ?_ ?_
    · simp [Kernel.got, hdev]
    · intro r hd ha
      refine (Ledger.live_take ..).mpr ?_
      by_cases hq : r = .queue ()
      · exact .inl hq
      · exact .inr (hlive r hq hd ha)

theorem dataPart_outcome {c : Calls Unit} {k : Sampleblk} (h : Alive k)
    (hdev : k.dev () = ⟨0, none, none, 0, none⟩) (hmajor : k.ledger.live .major = true) :
    Outcome (c.vmalloc () = true ∧ c.queue () = true ∧ c.alloc_disk () = true)
      (dataPart c SAMPLEBLK_MINOR k) := by
  simp only [dataPart, assign_eq (h.got .data _), Option.bind_eq_bind, Option.bind_some]
  refine .and ?_ ?_
  · intro hno
    rw [if_pos (answer_null hno), answer_null hno]
    exact fail_dev_failed ⟨h.ptr, h.live⟩
  · intro hok
    rw [if_neg (by simp [answer_ok hok]), answer_ok hok]
    refine queuePart_outcome ⟨h.ptr, (h.got .data (some ())).live⟩ ?_ ?_
    · simp [Kernel.got, hdev]
    · intro r hq hd ha
      refine (Ledger.live_take ..).mpr ?_
      cases r with
      | data _ => exact .inl rfl
      | dev _ => exact .inr h.live
      | queue _ => exact absurd rfl hq
      | disk _ => exact absurd rfl hd
      | added _ => exact absurd rfl ha
      | major => exact .inr hmajor

theorem alloc_outcome {c : Calls Unit} {k : Sampleblk}
    (hdev : k.dev () = ⟨0, none, none, 0, none⟩) (hmajor : k.ledger.live .major = true)
    (hnone : k.ledger.live (.dev ()) = false) :
    Outcome (c.kzalloc () = true ∧ c.vmalloc () = true ∧ c.queue () = true ∧
      c.alloc_disk () = true) (sampleblk_alloc c SAMPLEBLK_MINOR k) := by
  refine .and ?_ ?_
  · intro hno
    simp only [sampleblk_alloc, answer_null hno, if_true]
    exact ⟨_, rfl, hnone⟩
  · intro hok
    simp only [sampleblk_alloc, answer_ok hok, reduceCtorEq, if_false]
    refine dataPart_outcome ⟨rfl, ?_⟩ hdev ?_
    · exact (Ledger.live_take ..).mpr (.inl rfl)
    · exact (Ledger.live_take ..).mpr (.inr hmajor)

/-- The whole load, once the major number is there. -/
theorem init_eq {c : Calls Unit} (hm : 0 ≤ c.register_blkdev) :
    (NoneFails c → ∃ k, sampleblk_init c = some (0, k) ∧ SetUp k) ∧
      (¬ NoneFails c → ∃ k, sampleblk_init c = some (0, k) ∧ ¬ SetUp k) := by
  have hiff : NoneFails c ↔ c.kzalloc () = true ∧ c.vmalloc () = true ∧ c.queue () = true ∧
      c.alloc_disk () = true := by
    constructor
    · rintro ⟨h, -⟩
      obtain ⟨hv, hk, hqd⟩ := h ()
      exact ⟨hk, hv, hqd⟩
    · rintro ⟨hk, hv, hqd⟩
      exact ⟨fun _ => ⟨hv, hk, hqd⟩, hm⟩
  obtain ⟨hok, hfail⟩ := alloc_outcome (c := c)
    (k := { unloaded with
      glob := ⟨c.register_blkdev, none⟩, ledger := Ledger.empty.take .major }) rfl
    ((Ledger.live_take ..).mpr (.inl rfl)) rfl
  have hinit : sampleblk_init c = (sampleblk_alloc c SAMPLEBLK_MINOR { unloaded with
      glob := ⟨c.register_blkdev, none⟩, ledger := Ledger.empty.take .major }).map
        fun out => (0, out.2) := by
    simp only [sampleblk_init, Kernel.register_blkdev, if_pos hm, if_neg (not_lt.mpr hm)]
    rfl
  rw [hiff, hinit]
  constructor
  · intro h
    obtain ⟨k, hk, hset⟩ := hok h
    exact ⟨k, by rw [hk]; rfl, hset⟩
  · intro h
    obtain ⟨k, hk, hdev⟩ := hfail h
    refine ⟨k, by rw [hk]; rfl, ?_⟩
    intro hset
    rw [hset.live] at hdev
    cases hdev

theorem exit_setUp {k : Sampleblk} (h : SetUp k) :
    ∃ k', sampleblk_exit k = some k' ∧ k.ledger.ReleasedOnce k'.ledger := by
  let rs : List (Res Unit) := [.added (), .queue (), .disk (), .data (), .dev (), .major]
  have hmem : ∀ r, r ∈ rs ↔ k.ledger.live r = true := by
    intro r
    rw [h.live]
    cases r <;> simp [rs]
  obtain ⟨L, hexec, honce⟩ := Ledger.releasedOnce_of_exec (by decide) hmem
  obtain ⟨L₁, h₁, hexec⟩ := Option.bind_eq_some_iff.mp hexec
  obtain ⟨L₂, h₂, hexec⟩ := Option.bind_eq_some_iff.mp hexec
  obtain ⟨L₃, h₃, hexec⟩ := Option.bind_eq_some_iff.mp hexec
  obtain ⟨L₄, h₄, hexec⟩ := Option.bind_eq_some_iff.mp hexec
  obtain ⟨L₅, h₅, hexec⟩ := Option.bind_eq_some_iff.mp hexec
  obtain ⟨L₆, h₆, hexec⟩ := Option.bind_eq_some_iff.mp hexec
  obtain rfl := Option.some.inj hexec
  refine ⟨{ k with ledger := L₆ }, ?_, honce⟩
  simp [sampleblk_exit, sampleblk_free, h.sampleblk_dev, Ledger.deref_some (h.live _), h.dev,
    Kernel.del_gendisk, Kernel.release, h₁, Kernel.blk_cleanup_queue,
    Ledger.deref_some (Ledger.live_of_release h₂), h₂, Kernel.put_disk, Kernel.free, h₃, h₄, h₅,
    Kernel.unregister_blkdev, h₆]

theorem clean_iff (c : Calls Unit) :
    LoadsClean (sampleBlk c) ↔ c.register_blkdev < 0 ∨ NoneFails c := by
  by_cases hm : c.register_blkdev < 0
  · refine iff_of_true ?_ (.inl hm)
    have hno : ¬ 0 ≤ c.register_blkdev := by omega
    refine ⟨c.register_blkdev, { unloaded with glob := ⟨c.register_blkdev, none⟩ }, ?_, ?_, ?_⟩
    · simp only [sampleBlk, sampleblk_init, Kernel.register_blkdev, if_neg hno, if_pos hm]
      rfl
    · exact fun _ _ => rfl
    · intro h
      omega
  · rw [or_iff_right hm]
    obtain ⟨hok, hfail⟩ := init_eq (not_lt.mp hm)
    constructor
    · rintro ⟨ret, k, hk, -, hzero⟩
      by_contra hnone
      obtain ⟨k', hk', hset⟩ := hfail hnone
      obtain ⟨rfl, rfl⟩ := Prod.mk.inj (Option.some.inj (hk'.symm.trans hk))
      exact hset (hzero rfl).1
    · intro h
      obtain ⟨k, hk, hset⟩ := hok h
      exact ⟨0, k, hk, absurd rfl, fun _ => ⟨hset, exit_setUp hset⟩⟩

end Sample

end KernelLab.RamDisk.Load
