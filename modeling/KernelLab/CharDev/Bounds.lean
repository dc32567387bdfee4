/-
# `KernelLab.CharDev.Bounds` — which calls stay inside the buffer

`pread` and `pwrite` take a position from the caller, so unlike in a run of plain
reads and writes it may be anywhere up to `2 ^ 63`.  Behind the end of the device
the difference `ramdisk_size - *ppos` is negative; what is left of it in an `int`
is its residue modulo `2 ^ 32`, and as a `size_t` that is again almost always
larger than `lbuf`.  The call then copies `lbuf` bytes from or to memory that is
not the buffer's.

`copies_bounded_iff` says when this does not happen, for the four functions of the
two labs: exactly when the position is not behind the end, or nothing is asked
for, or the position is behind the end by a multiple of `2 ^ 32`, where the
difference truncates to zero.  A read of the wait-event lab that leaves because of
a signal copies nothing at any position.
-/
import KernelLab.CharDev.Misc
import KernelLab.CharDev.WaitEvent

namespace KernelLab.CharDev

open KernelLab.CInt

/-- The range handed to the copy function starts at the position, is empty or lies
in the buffer, and is no longer than what was asked for; and at or behind the end
no byte moves. -/
def Bounded {β : Type} (ppos : Int) (lbuf : Nat) (call : Call β) : Prop :=
  (∀ c, call.copy = some c → c.off = ppos ∧
    (c.len = 0 ∨ (0 ≤ c.off ∧ c.off + c.len ≤ ramdisk_size)) ∧ c.len ≤ lbuf) ∧
  (ramdisk_size ≤ ppos → call.moved = 0)

/-- Not behind the end, or nothing asked for, or behind it by a multiple of
`2 ^ 32`. -/
def Safe (ppos : Int) (lbuf : Nat) : Prop :=
  ppos ≤ ramdisk_size ∨ lbuf = 0 ∨ (ppos - ramdisk_size) % 2 ^ 32 = 0

/-- One byte from one byte behind the end. -/
theorem read_behind_end :
    let call := Misc.mycdev_generic_read (fun _ => 0) 65537 1 1
    call.copy = some ⟨65537, 1⟩ ∧ call.moved = 1 ∧ ¬ Bounded 65537 1 call := by
  refine ⟨rfl, rfl, fun h => ?_⟩
  have := h.2 (by decide)
  exact absurd this (by decide)

/-! ## The truncation -/

theorem maxbytes_eq_zero_iff (ppos : Int) :
    maxbytes ppos = 0 ↔ (ppos - ramdisk_size) % 2 ^ 32 = 0 := by
  unfold maxbytes toInt toULong
  omega

/-- A call asks for nothing exactly when the caller does or `maxbytes` is zero:
otherwise the unsigned comparison leaves something of both. -/
theorem bytes_to_do_eq_zero_iff (ppos : Int) {lbuf : Nat} (hl : lbuf ≤ MAX_RW_COUNT) :
    bytes_to_do ppos lbuf = 0 ↔ lbuf = 0 ∨ (ppos - ramdisk_size) % 2 ^ 32 = 0 := by
  have hmax : (MAX_RW_COUNT : Int) = 2147479552 := rfl
  rw [← maxbytes_eq_zero_iff]
  have hm : -2 ^ 31 ≤ maxbytes ppos ∧ maxbytes ppos < 2 ^ 31 := by
    unfold maxbytes toInt
    omega
  unfold bytes_to_do toULong toInt
  split <;> omega

/-- The part the four functions share. -/
theorem transfer_bounded_iff {ppos : Int} {lbuf : Nat} (h0 : 0 ≤ ppos) (hl : lbuf ≤ MAX_RW_COUNT) :
    (∀ k, ((handed ppos lbuf).len = 0 ∨ ppos + (handed ppos lbuf).len ≤ ramdisk_size) ∧
        (handed ppos lbuf).len ≤ lbuf ∧ (ramdisk_size ≤ ppos → moved ppos lbuf k = 0)) ↔
      Safe ppos lbuf := by
  have hb := bytes_to_do_bounds ppos hl
  have hz := bytes_to_do_eq_zero_iff ppos hl
  simp only [handed_len ppos hl, moved_eq ppos hl]
  unfold Safe
  by_cases hle : ppos ≤ ramdisk_size
  · have heq := bytes_to_do_of_le lbuf h0 hle
    constructor
    · exact fun _ => .inl hle
    · intro _ k
      omega
  · constructor
    · intro h
      -- a copy that does not fault moves everything it was asked for
      have := (h lbuf).2.2 (by omega)
      exact .inr (hz.mp (by omega))
    · intro h k
      have := hz.mpr (h.resolve_left hle)
      omega

/-- A call that hands over `handed` and moves `moved` bytes. -/
theorem bounded_iff {β : Type} {ppos : Int} {lbuf k : Nat} {call : Call β} (h0 : 0 ≤ ppos)
    (hc : call.copy = some (handed ppos lbuf)) (hm : call.moved = moved ppos lbuf k) :
    Bounded ppos lbuf call ↔
      ((handed ppos lbuf).len = 0 ∨ ppos + (handed ppos lbuf).len ≤ ramdisk_size) ∧
        (handed ppos lbuf).len ≤ lbuf ∧ (ramdisk_size ≤ ppos → moved ppos lbuf k = 0) := by
  simp only [Bounded, hc, hm, Option.some.injEq, forall_eq']
  constructor
  · rintro ⟨⟨-, hin | ⟨-, hin⟩, hle⟩, hz⟩
    · exact ⟨.inl hin, hle, hz⟩
    · exact ⟨.inr hin, hle, hz⟩
  · rintro ⟨hin | hin, hle, hz⟩
    · exact ⟨⟨rfl, .inl hin, hle⟩, hz⟩
    · exact ⟨⟨rfl, .inr ⟨h0, hin⟩, hle⟩, hz⟩

theorem read_bounded_iff {ppos : Int} {lbuf : Nat} (h0 : 0 ≤ ppos) (hl : lbuf ≤ MAX_RW_COUNT) :
    (∀ ramdisk k, Bounded ppos lbuf (readCall ramdisk ppos lbuf k)) ↔ Safe ppos lbuf := by
  rw [← transfer_bounded_iff h0 hl]
  constructor
  · exact fun h k => (bounded_iff h0 rfl rfl).mp (h (fun _ => 0) k)
  · exact fun h ramdisk k => (bounded_iff h0 rfl rfl).mpr (h k)

theorem write_bounded_iff {ppos : Int} {lbuf : Nat} (h0 : 0 ≤ ppos) (hl : lbuf ≤ MAX_RW_COUNT) :
    (∀ ramdisk (buf : List UInt8) k, buf.length = lbuf →
        Bounded ppos lbuf (writeCall ramdisk ppos buf k)) ↔ Safe ppos lbuf := by
  rw [← transfer_bounded_iff h0 hl]
  constructor
  · intro h k
    have hlen : (List.replicate lbuf (0 : UInt8)).length = lbuf := List.length_replicate
    refine (bounded_iff h0 ?_ ?_).mp (h (fun _ => 0) (List.replicate lbuf 0) k hlen)
    · rw [writeCall, hlen]
    · rw [writeCall, hlen]
  · rintro h ramdisk buf k rfl
    exact (bounded_iff h0 rfl rfl).mpr (h k)

theorem copies_bounded_iff (ppos : Int) (lbuf : Nat) (h0 : 0 ≤ ppos) (hl : lbuf ≤ MAX_RW_COUNT) :
    ((∀ ramdisk k, Bounded ppos lbuf (Misc.mycdev_generic_read ramdisk ppos lbuf k)) ↔
      Safe ppos lbuf) ∧
    ((∀ ramdisk (buf : List UInt8) k, buf.length = lbuf →
        Bounded ppos lbuf (Misc.mycdev_generic_write ramdisk ppos buf k)) ↔ Safe ppos lbuf) ∧
    (∀ signal_pending,
      (∀ ramdisk k, Bounded ppos lbuf
        (WaitEvent.mycdev_generic_read signal_pending ramdisk ppos lbuf k).1) ↔
      signal_pending = true ∨ Safe ppos lbuf) ∧
    ((∀ ramdisk (buf : List UInt8) k, buf.length = lbuf →
        Bounded ppos lbuf (WaitEvent.mycdev_generic_write ramdisk ppos buf k).1) ↔
      Safe ppos lbuf) := by
  refine ⟨read_bounded_iff h0 hl, write_bounded_iff h0 hl, ?_, write_bounded_iff h0 hl⟩
  intro signal_pending
  cases signal_pending with
  | false =>
      rw [← read_bounded_iff h0 hl]
      simp [WaitEvent.mycdev_generic_read]
  | true =>
      simp only [true_or, iff_true]
      intro ramdisk k
      exact ⟨fun c hc => (nomatch hc), fun _ => rfl⟩

/-- Ten bytes asked for, six bytes before the end. -/
theorem copies_bounded_near_end :
    (0 : Int) ≤ 65530 ∧ 10 ≤ MAX_RW_COUNT ∧ Safe 65530 10 ∧
      ∀ ramdisk k, Bounded 65530 10 (Misc.mycdev_generic_read ramdisk 65530 10 k) :=
  ⟨by decide, by decide, .inl (by decide),
    (copies_bounded_iff 65530 10 (by decide) (by decide)).1.mpr (.inl (by decide))⟩

end KernelLab.CharDev
