/-
# `KernelLab.RamDisk.Load.Kernel` — what a RAM-disk driver asks of the kernel

Every call of a load that can fail answers with a pointer or with null, and the answers
of all calls are a `Calls`.  Everything else is decided by the driver.

Running into a pointer that is null or freed ends the load or the unload (`none`), and so
does giving back what is not held.  Of the functions that take a pointer, `vfree`,
`kfree` and `put_disk` accept null.
-/
import KernelLab.Lib.Ledger

namespace KernelLab.RamDisk.Load

def ENOMEM : Int := 12

/-- What a load can acquire, with the number of the call that returned it. -/
inductive Res (ι : Type)
  | data (i : ι)
  | dev (i : ι)
  | queue (i : ι)
  | disk (i : ι)
  /-- the registration by `add_disk` -/
  | added (i : ι)
  /-- the registration by `register_blkdev` -/
  | major
  deriving DecidableEq

/-- Null, or what the call of that number returned. -/
abbrev Ptr (ι : Type) := Option ι

/-- How the calls answer: whether the allocation for a device succeeds, and the number
`register_blkdev` returns, negative when it fails. -/
structure Calls (ι : Type) where
  vmalloc : ι → Bool
  kzalloc : ι → Bool
  /-- `blk_alloc_queue` or `blk_init_queue` -/
  queue : ι → Bool
  alloc_disk : ι → Bool
  register_blkdev : Int

def NoneFails {ι : Type} (c : Calls ι) : Prop :=
  (∀ i, c.vmalloc i = true ∧ c.kzalloc i = true ∧ c.queue i = true ∧ c.alloc_disk i = true) ∧
    0 ≤ c.register_blkdev

def answer {ι : Type} (ok : ι → Bool) (i : ι) : Ptr ι := if ok i then some i else none

structure Gendisk (ι : Type) where
  major : Int
  first_minor : Nat
  queue : Ptr ι
  private_data : Ptr ι

/-- The module and what it shares with the kernel. -/
structure Kernel (γ ι δ : Type) where
  /-- the static variables -/
  glob : γ
  /-- the objects returned by `kzalloc` -/
  dev : ι → δ
  /-- the objects returned by `alloc_disk` -/
  gendisk : ι → Gendisk ι
  ledger : Ledger (Res ι)

namespace Kernel

variable {γ ι δ : Type} [DecidableEq ι]

/-- An allocation has answered with `p`. -/
def got (k : Kernel γ ι δ) (kind : ι → Res ι) : Ptr ι → Kernel γ ι δ
  | none => k
  | some a => { k with ledger := k.ledger.take (kind a) }

def register_blkdev (c : Calls ι) (k : Kernel γ ι δ) : Kernel γ ι δ :=
  if 0 ≤ c.register_blkdev then { k with ledger := k.ledger.take .major } else k

def release (k : Kernel γ ι δ) (r : Res ι) : Option (Kernel γ ι δ) :=
  (k.ledger.release r).map fun L => { k with ledger := L }

/-- `kfree` and `vfree`, which do nothing on null. -/
def free (k : Kernel γ ι δ) (kind : ι → Res ι) : Ptr ι → Option (Kernel γ ι δ)
  | none => some k
  | some a => k.release (kind a)

/-- The disk is used from here on, and its queue with it. -/
def add_disk (k : Kernel γ ι δ) (gd : Ptr ι) : Option (Kernel γ ι δ) := do
  let g ← k.ledger.deref .disk gd
  let _ ← k.ledger.deref .queue (k.gendisk g).queue
  some { k with ledger := k.ledger.take (.added g) }

def del_gendisk (k : Kernel γ ι δ) (gd : Ptr ι) : Option (Kernel γ ι δ) := do
  let g ← k.ledger.deref .disk gd
  k.release (.added g)

def put_disk (k : Kernel γ ι δ) (gd : Ptr ι) : Option (Kernel γ ι δ) := k.free .disk gd

def blk_cleanup_queue (k : Kernel γ ι δ) (queue : Ptr ι) : Option (Kernel γ ι δ) := do
  let q ← k.ledger.deref .queue queue
  k.release (.queue q)

def unregister_blkdev (k : Kernel γ ι δ) : Option (Kernel γ ι δ) := k.release .major

end Kernel

theorem answer_ok {ι : Type} {ok : ι → Bool} {i : ι} (h : ok i = true) : answer ok i = some i := by
  rw [answer, if_pos h]

theorem answer_null {ι : Type} {ok : ι → Bool} {i : ι} (h : ok i = false) :
    answer ok i = none := by
  rw [answer, h]
  rfl

end KernelLab.RamDisk.Load
