/-
# `KernelLab.CharDev.Transfer` — the transfer of `mycdev_generic_read` and `_write`

The misc-device lab (`lab-misc.c`) and the wait-event lab (`wait_event.c`) move
bytes between a buffer of the module and user space with the same four lines:

    maxbytes    = ramdisk_size - *ppos;                       int ← size_t - loff_t
    bytes_to_do = maxbytes > lbuf ? lbuf : maxbytes;          int ← (size_t > size_t)
    nbytes      = bytes_to_do - copy_xx_user(.., bytes_to_do);
    *ppos      += nbytes;

They are modelled once, with every conversion C makes on the way, and each
function of the two labs is an instance.  The comparison is the one to watch:
`maxbytes` is an `int`, `lbuf` a `size_t`, so a negative `maxbytes` is compared as
a number just below `2 ^ 64`.

A call is described by what it hands to `copy_to_user` or `copy_from_user`, what
that does to memory, the returned count and the new position.  A copy whose range
leaves the buffer has no effect that could be written down, so it has the effect
`none`; the range itself is kept in the result.

How far a copy gets is a parameter `k` of the call: it stops behind `k` bytes, or
completes if there are fewer.  Both copy functions return the number of bytes not
copied, and `copy_from_user` fills the part it did not reach with zeros.

`bytes_to_do_of_le` is the fact the rest lives on: up to the end of the device
nothing wraps, and `bytes_to_do` is the smaller of what is asked for and what is
left.
-/
import KernelLab.Lib.CInt
import KernelLab.Lib.Region

namespace KernelLab.CharDev

open KernelLab.CInt

def PAGE_SIZE : Nat := 4096

def ramdisk_size : Nat := 16 * PAGE_SIZE

/-- The buffer both labs allocate. -/
abbrev Ramdisk := Region UInt8 ramdisk_size

/-- The most the VFS passes on in one call. -/
def MAX_RW_COUNT : Nat := 0x7ffff000

/-! ## The arithmetic -/

def maxbytes (ppos : Int) : Int := toInt (toULong (ramdisk_size - ppos))

/-- The `int` operand is converted to `size_t`, in the comparison and, as the
type of a conditional is that of both its arms, in the result. -/
def bytes_to_do (ppos : Int) (lbuf : Nat) : Int :=
  toInt (if toULong (maxbytes ppos) > lbuf then (lbuf : Int) else toULong (maxbytes ppos))

/-- The bytes not copied, of `n` asked for, by a copy that stops behind `k`. -/
def notCopied (k : Nat) (n : Int) : Int := n - min n k

/-- `bytes_to_do - copy_xx_user(.., bytes_to_do)`, an `unsigned long` stored in an
`int`. -/
def nbytes (bytes_to_do : Int) (k : Nat) : Int :=
  toInt (toULong (toULong bytes_to_do - notCopied k (toULong bytes_to_do)))

/-- Up to the end of the device, the smaller of what is asked for and what is
left. -/
theorem bytes_to_do_of_le {ppos : Int} (lbuf : Nat) (h0 : 0 ≤ ppos) (hle : ppos ≤ ramdisk_size) :
    bytes_to_do ppos lbuf = min (ramdisk_size - ppos) lbuf := by
  have hsize : (ramdisk_size : Int) = 65536 := rfl
  have hm : maxbytes ppos = ramdisk_size - ppos := by
    unfold maxbytes
    rw [toULong_of_range (by omega) (by omega),
      toInt_of_range (by omega) (by simp [INT_MAX]; omega)]
  unfold bytes_to_do
  rw [hm, toULong_of_range (by omega) (by omega)]
  split
  · rw [toInt_of_range (by omega) (by simp [INT_MAX]; omega)]
    omega
  · rw [toInt_of_range (by omega) (by simp [INT_MAX]; omega)]
    omega

/-- Whatever the position, between zero and what is asked for. -/
theorem bytes_to_do_bounds (ppos : Int) {lbuf : Nat} (hl : lbuf ≤ MAX_RW_COUNT) :
    0 ≤ bytes_to_do ppos lbuf ∧ bytes_to_do ppos lbuf ≤ lbuf := by
  have hmax : (MAX_RW_COUNT : Int) = 2147479552 := rfl
  have hm : 0 ≤ toULong (maxbytes ppos) := by unfold toULong; omega
  unfold bytes_to_do
  split <;> rw [toInt_of_range (by omega) (by simp [INT_MAX]; omega)] <;> omega

/-- The count is the number of bytes copied. -/
theorem nbytes_eq {b : Int} (h0 : 0 ≤ b) (hb : b ≤ MAX_RW_COUNT) (k : Nat) :
    nbytes b k = min b k := by
  have hmax : (MAX_RW_COUNT : Int) = 2147479552 := rfl
  have hu : toULong b = b := toULong_of_range h0 (by omega)
  unfold nbytes notCopied
  rw [hu, toULong_of_range (by omega) (by omega),
    toInt_of_range (by omega) (by simp [INT_MAX]; omega)]
  omega

/-! ## A call -/

/-- The range of the buffer handed to a copy function. -/
structure Copy where
  off : Int
  len : Int
  deriving DecidableEq, Repr

/-- What a call does: the copy it asks for, if it gets that far, the effect of it,
the bytes that moved, the value returned and the position it leaves. -/
structure Call (β : Type) where
  copy : Option Copy
  effect : Option β
  moved : Int
  ret : Int
  ppos : Int

/-- The bytes of the buffer in a range, if the range is in the buffer. -/
def fetch (ramdisk : Ramdisk) (c : Copy) : Option (List UInt8) :=
  if 0 ≤ c.off then ramdisk.load c.off.toNat c.len.toNat else none

/-- The buffer with a range replaced, if the range is in the buffer. -/
def put (ramdisk : Ramdisk) (c : Copy) (bytes : List UInt8) : Option Ramdisk :=
  if 0 ≤ c.off then ramdisk.store c.off.toNat bytes else none

/-- The range a call asks for. -/
def handed (ppos : Int) (lbuf : Nat) : Copy := ⟨ppos, toULong (bytes_to_do ppos lbuf)⟩

/-- The bytes a copy of that range moves. -/
def moved (ppos : Int) (lbuf k : Nat) : Int :=
  (handed ppos lbuf).len - notCopied k (handed ppos lbuf).len

/-- A read: the effect is what arrives in user space. -/
def readCall (ramdisk : Ramdisk) (ppos : Int) (lbuf k : Nat) : Call (List UInt8) where
  copy := some (handed ppos lbuf)
  effect := (fetch ramdisk (handed ppos lbuf)).map (List.take (moved ppos lbuf k).toNat)
  moved := moved ppos lbuf k
  ret := nbytes (bytes_to_do ppos lbuf) k
  ppos := toLLong (ppos + nbytes (bytes_to_do ppos lbuf) k)

/-- What `copy_from_user` lays down over the whole range: the user's bytes as far
as it gets, and zeros behind them. -/
def landed (ppos : Int) (buf : List UInt8) (k : Nat) : List UInt8 :=
  buf.take (moved ppos buf.length k).toNat ++
    List.replicate ((handed ppos buf.length).len - moved ppos buf.length k).toNat 0

/-- A write of the user's `buf`, so `lbuf` is its length: the effect is the buffer
of the module. -/
def writeCall (ramdisk : Ramdisk) (ppos : Int) (buf : List UInt8) (k : Nat) : Call Ramdisk where
  copy := some (handed ppos buf.length)
  effect := put ramdisk (handed ppos buf.length) (landed ppos buf k)
  moved := moved ppos buf.length k
  ret := nbytes (bytes_to_do ppos buf.length) k
  ppos := toLLong (ppos + nbytes (bytes_to_do ppos buf.length) k)

theorem handed_len {lbuf : Nat} (ppos : Int) (hl : lbuf ≤ MAX_RW_COUNT) :
    (handed ppos lbuf).len = bytes_to_do ppos lbuf := by
  have hmax : (MAX_RW_COUNT : Int) = 2147479552 := rfl
  have hb := bytes_to_do_bounds ppos hl
  exact toULong_of_range hb.1 (by omega)

theorem moved_eq {lbuf : Nat} (ppos : Int) (hl : lbuf ≤ MAX_RW_COUNT) (k : Nat) :
    moved ppos lbuf k = min (bytes_to_do ppos lbuf) k := by
  unfold moved notCopied
  rw [handed_len ppos hl]
  omega

end KernelLab.CharDev
