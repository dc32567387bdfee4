/-
# `KernelLab.MmapRoot.Finds` — when the scan finds everything

The loop of `jeff-mmap.c` reads up to 8 and writes up to 11 bytes from an address of which
only the first byte is known to be in the window, and what it writes it will look at next.

## What is proved

`scan_finds_iff`: the scan ends, stays in the window, reports every occurrence in the
original content and changes nothing but the three bytes behind a reported one, if and
only if the content is `Safe`:

    room     behind every occurrence there are three more bytes
    apart    no occurrence begins in the three bytes behind another
    uncut    the content does not end in the middle of a `jeffnice`, unless that
             beginning is among the three bytes behind an occurrence

`scan_ends`: it ends on every content, if only by leaving the window.

The invariant `Inv` holds of every scan, safe or not: the memory is the original but for
the marks behind the reports so far.  What makes it work is that no letter of the pattern
occurs in the mark, and that `j` occurs in the pattern only once.
-/
import KernelLab.MmapRoot.Scan

namespace KernelLab.MmapRoot

open KernelLab.Loop

/-! ## What is asked of the scan -/

/-- The scan ends in the window, with every occurrence reported and nothing changed but
the three bytes behind a reported one. -/
structure Finds (w : Window) : Prop where
  result : ∃ mem found, scan w (some (mem, found)) ∧ (∀ i, Holds w.bytes i → i ∈ found) ∧
    mem.length = w.bytes.length ∧
    ∀ x, mem[x]? ≠ w.bytes[x]? → ∃ i ∈ found, Behind i x

/-- The contents on which it does. -/
structure Safe (bytes : List UInt8) : Prop where
  room : ∀ i, Holds bytes i → i + 11 ≤ bytes.length
  apart : ∀ i j, Holds bytes i → Holds bytes j → i < j → i + 11 ≤ j
  uncut : ∀ j, Cut bytes j → ∃ i, Holds bytes i ∧ Behind i j

/-! ## The invariant -/

/-- Offset `x` is one of the three bytes behind a report. -/
def Marked (found : List Nat) (x : Nat) : Prop := ∃ m ∈ found, Behind m x

/-- Before offset `i` is looked at, with `w` the original content. -/
structure Inv (w : List UInt8) (i : Nat) (mem : List UInt8) (found : List Nat) : Prop where
  length : mem.length = w.length
  kept : ∀ x, mem[x]? ≠ w[x]? → Marked found x
  marked : ∀ x, Marked found x → ∃ b ∈ mark, mem[x]? = some b
  reported : ∀ m ∈ found, m < i ∧ Holds w m ∧ m + 11 ≤ w.length
  apart : ∀ m ∈ found, ¬ Marked found m
  met : ∀ j < i, Holds w j → j ∈ found ∨ Marked found j
  uncut : ∀ j < i, Cut w j → Marked found j

section
variable {w mem mem' : List UInt8} {i : Nat} {found : List Nat}

theorem Inv.init (w : List UInt8) : Inv w 0 w [] where
  length := rfl
  kept x hx := absurd rfl hx
  marked := by
    rintro x ⟨m, hm, -⟩
    cases hm
  reported m hm := by cases hm
  apart m hm := by cases hm
  met j hj := absurd hj (Nat.not_lt_zero j)
  uncut j hj := absurd hj (Nat.not_lt_zero j)

/-- What the scan sees at `i` is what was there, unless a mark stands there. -/
theorem Inv.begins_iff (h : Inv w i mem found) {k : Nat} (hk : 0 < k) :
    Begins mem i k ↔ Begins w i k ∧ ¬ Marked found i := by
  constructor
  · intro hb
    -- a mark has no letter of the pattern
    have hclean : ∀ j < k, ¬ Marked found (i + j) := by
      intro j hj hx
      obtain ⟨b, hbm, hmem⟩ := h.marked _ hx
      have hpat : pattern[j]? = some b := (hb j hj).symm.trans hmem
      exact mark_not_pattern b hbm (List.mem_of_getElem? hpat)
    refine ⟨?_, hclean 0 hk⟩
    intro j hj
    have heq : mem[i + j]? = w[i + j]? := not_not.mp fun hne => hclean j hj (h.kept _ hne)
    rw [← heq, hb j hj]
  · rintro ⟨hb, hclean⟩ j hj
    have hx : ¬ Marked found (i + j) := by
      rintro ⟨m, hm, hx⟩
      obtain ⟨hlt, hh, -⟩ := h.reported m hm
      have hgap := hh.gap hb hk hlt
      refine hclean ⟨m, hm, hgap, ?_⟩
      have := hx.2
      omega
    have heq : mem[i + j]? = w[i + j]? := not_not.mp fun hne => hx (h.kept _ hne)
    rw [heq, hb j hj]

theorem Inv.holds_iff (h : Inv w i mem found) :
    Holds mem i ↔ Holds w i ∧ ¬ Marked found i := by
  rw [MmapRoot.holds_iff, MmapRoot.holds_iff, h.begins_iff (by decide)]

theorem Inv.cut_iff (h : Inv w i mem found) : Cut mem i ↔ Cut w i ∧ ¬ Marked found i := by
  rw [MmapRoot.cut_iff, MmapRoot.cut_iff, h.length]
  constructor
  · rintro ⟨k, hk, hk8, hlen, hb⟩
    obtain ⟨hw, hclean⟩ := (h.begins_iff hk).mp hb
    exact ⟨⟨k, hk, hk8, hlen, hw⟩, hclean⟩
  · rintro ⟨⟨k, hk, hk8, hlen, hw⟩, hclean⟩
    exact ⟨k, hk, hk8, hlen, (h.begins_iff hk).mpr ⟨hw, hclean⟩⟩

/-- The iteration that finds nothing. -/
theorem Inv.pass (h : Inv w i mem found) (hh : ¬ Holds mem i) (hc : ¬ Cut mem i) :
    Inv w (i + 1) mem found where
  length := h.length
  kept := h.kept
  marked := h.marked
  reported m hm := by
    obtain ⟨hlt, hrest⟩ := h.reported m hm
    exact ⟨by omega, hrest⟩
  apart := h.apart
  met j hj hw := by
    rcases Nat.lt_succ_iff_lt_or_eq.mp hj with hj | rfl
    · exact h.met j hj hw
    · exact .inr (not_not.mp fun hm => hh (h.holds_iff.mpr ⟨hw, hm⟩))
  uncut j hj hw := by
    rcases Nat.lt_succ_iff_lt_or_eq.mp hj with hj | rfl
    · exact h.uncut j hj hw
    · exact not_not.mp fun hm => hc (h.cut_iff.mpr ⟨hw, hm⟩)

theorem marked_append {x : Nat} :
    Marked (found ++ [i]) x ↔ Marked found x ∨ Behind i x := by
  simp only [Marked, List.mem_append, List.mem_singleton, or_and_right, exists_or,
    exists_eq_left]

/-- A report marks nothing before the end of its occurrence. -/
theorem Marked.of_append {x : Nat} (h : Marked (found ++ [i]) x) (hlt : x < i + 8) :
    Marked found x := by
  refine (marked_append.mp h).resolve_right fun hb => ?_
  have := hb.1
  omega

/-- The iteration that reports `i` and writes the mark. -/
theorem Inv.report (h : Inv w i mem found) (hh : Holds mem i) (hroom : i + 11 ≤ w.length)
    (hlen : mem'.length = mem.length) (hkept : ∀ x, ¬ Behind i x → mem'[x]? = mem[x]?)
    (hset : ∀ x, Behind i x → ∃ b ∈ mark, mem'[x]? = some b) :
    Inv w (i + 1) mem' (found ++ [i]) := by
  obtain ⟨hw, hclean⟩ := h.holds_iff.mp hh
  constructor
  case length => exact hlen.trans h.length
  case kept =>
      intro x hx
      by_cases hb : Behind i x
      · exact marked_append.mpr (.inr hb)
      · rw [hkept x hb] at hx
        exact marked_append.mpr (.inl (h.kept x hx))
  case marked =>
      intro x hx
      by_cases hb : Behind i x
      · exact hset x hb
      · rw [hkept x hb]
        exact h.marked x ((marked_append.mp hx).resolve_right hb)
  case reported =>
      intro m hm
      rcases List.mem_append.mp hm with hm | hm
      · obtain ⟨hlt, hrest⟩ := h.reported m hm
        exact ⟨by omega, hrest⟩
      · rw [List.mem_singleton.mp hm]
        exact ⟨Nat.lt_succ_self i, hw, hroom⟩
  case apart =>
      intro m hm hx
      rcases List.mem_append.mp hm with hm | hm
      · have hlt := (h.reported m hm).1
        exact h.apart m hm (hx.of_append (by omega))
      · rw [List.mem_singleton.mp hm] at hx
        exact hclean (hx.of_append (by omega))
  case met =>
      intro j hj hj'
      rcases Nat.lt_succ_iff_lt_or_eq.mp hj with hj | rfl
      · rcases h.met j hj hj' with hm | hm
        · exact .inl (List.mem_append_left _ hm)
        · exact .inr (marked_append.mpr (.inl hm))
      · exact .inl (List.mem_append_right _ (List.mem_singleton.mpr rfl))
  case uncut =>
      intro j hj hj'
      rcases Nat.lt_succ_iff_lt_or_eq.mp hj with hj | rfl
      · exact marked_append.mpr (.inl (h.uncut j hj hj'))
      · obtain ⟨k, -, hk8, hlen', -⟩ := MmapRoot.cut_iff.mp hj'
        omega

end

/-! ## The scan -/

theorem Window.addr_lt_iff (w : Window) {i : Nat} :
    mmapStart + i < (mmapStart + w.bytes.length) % 2 ^ 64 ↔ i < w.bytes.length := by
  rw [Nat.mod_eq_of_lt w.fits]
  omega

/-- The invariant of the loop. -/
def Reached (w : Window) (s : State) : Prop :=
  ∃ i ≤ w.bytes.length, s.addr = mmapStart + i ∧ Inv w.bytes i s.mem s.found

theorem Reached.init (w : Window) : Reached w ⟨mmapStart, w.bytes, []⟩ :=
  ⟨0, Nat.zero_le _, rfl, Inv.init w.bytes⟩

theorem Reached.next {w : Window} {s s' : State} (h : Reached w s)
    (hb : body w.bytes.length s = .next s') : Reached w s' := by
  obtain ⟨i, -, haddr, hinv⟩ := h
  obtain ⟨hlt, hcase⟩ := body_next hb
  rw [haddr] at hlt hcase
  have hi : i < w.bytes.length := w.addr_lt_iff.mp hlt
  refine ⟨i + 1, hi, ?_⟩
  rcases hcase with ⟨hc, rfl⟩ | ⟨hc, mem, ha, rfl⟩
  · obtain ⟨hh, hcut⟩ := not_of_comparison hc
    exact ⟨rfl, hinv.pass hh hcut⟩
  · obtain ⟨hroom, hlen, hkept, hset⟩ := assignments_mark ha
    rw [hinv.length] at hroom
    rw [Nat.add_sub_cancel_left]
    exact ⟨rfl, hinv.report (holds_of_comparison hc) hroom hlen hkept hset⟩

/-- The scan ends, whatever the content: every iteration moves `addr`. -/
theorem scan_ends (w : Window) : ∃ out, scan w out := by
  have hends : ∃ out, scan w out ∧ True := by
    refine ends_of_measure (fun _ => True) (fun s => mmapStart + w.bytes.length - s.addr)
      (fun _ => True) ?_ (fun _ _ _ _ => trivial) _ trivial
    intro s s' _ hb
    obtain ⟨hlt, hcase⟩ := body_next hb
    rw [Nat.mod_eq_of_lt w.fits] at hlt
    have haddr : s'.addr = s.addr + 1 := by
      rcases hcase with ⟨-, rfl⟩ | ⟨-, mem, -, rfl⟩
      · rfl
      · rfl
    rw [haddr]
    exact ⟨trivial, by omega⟩
  obtain ⟨out, hscan, -⟩ := hends
  exact ⟨out, hscan⟩

/-- A scan that ends inside the window has been through all of it. -/
theorem inv_of_scan {w : Window} {mem : List UInt8} {found : List Nat}
    (h : scan w (some (mem, found))) : Inv w.bytes w.bytes.length mem found := by
  obtain ⟨s, ⟨i, hi, haddr, hinv⟩, hb⟩ :=
    Ends.invariant (Reached w) (fun _ _ => Reached.next) h (Reached.init w)
  rcases body_exit hb with ⟨hend, hr⟩ | ⟨-, hr, -⟩
  · rw [haddr, w.addr_lt_iff] at hend
    obtain rfl : i = w.bytes.length := by omega
    cases hr
    exact hinv
  · cases hr

/-- What a scan that finds everything says of the content. -/
theorem Finds.safe {w : Window} (h : Finds w) : Safe w.bytes := by
  obtain ⟨mem, found, hscan, hall, -, -⟩ := h.result
  have hinv := inv_of_scan hscan
  constructor
  case room =>
      intro i hi
      exact (hinv.reported i (hall i hi)).2.2
  case apart =>
      intro i j hi hj hlt
      have hgap : i + 8 ≤ j := hi.gap (holds_iff.mp hj) (by decide) hlt
      have hclean : ¬ Behind i j := fun hb => hinv.apart j (hall j hj) ⟨i, hall i hi, hb⟩
      rw [Behind] at hclean
      omega
  case uncut =>
      intro j hj
      obtain ⟨m, hm, hb⟩ := hinv.uncut j hj.1 hj
      exact ⟨m, (hinv.reported m hm).2.1, hb⟩

section
variable {w mem : List UInt8} {i : Nat} {found : List Nat}

/-- In a safe content no occurrence is overwritten, so all so far have been reported. -/
theorem Safe.mem_found (hs : Safe w) (h : Inv w i mem found) {j : Nat} (hj : j < i)
    (hh : Holds w j) : j ∈ found := by
  refine (h.met j hj hh).resolve_right ?_
  rintro ⟨m, hm, hle, hlt⟩
  have := hs.apart m j (h.reported m hm).2.1 hh (by omega)
  omega

theorem Safe.not_cut (hs : Safe w) (h : Inv w i mem found) : ¬ Cut mem i := by
  intro hc
  obtain ⟨hw, hclean⟩ := h.cut_iff.mp hc
  obtain ⟨m, hm, hb⟩ := hs.uncut i hw
  have hlt : m < i := by
    have := hb.1
    omega
  exact hclean ⟨m, hs.mem_found h hlt hm, hb⟩

end

/-- In a safe content no access leaves the window. -/
theorem Safe.exit {w : Window} (hs : Safe w.bytes) {s : State}
    {r : Option (List UInt8 × List Nat)} (h : Reached w s)
    (hb : body w.bytes.length s = .exit r) : r = some (s.mem, s.found) := by
  obtain ⟨i, -, haddr, hinv⟩ := h
  rcases body_exit hb with ⟨-, hr⟩ | ⟨hlt, -, hcase⟩
  · exact hr
  · rw [haddr] at hlt hcase
    have hi : i < w.bytes.length := w.addr_lt_iff.mp hlt
    exfalso
    rcases hcase with hc | ⟨hc, ha⟩
    · exact hs.not_cut hinv (cut_of_comparison (by rw [hinv.length]; exact hi) hc)
    · have hh := (hinv.holds_iff.mp (holds_of_comparison hc)).1
      have hroom : i + 8 + 3 ≤ s.mem.length := by rw [hinv.length]; exact hs.room i hh
      obtain ⟨mem', ha', -⟩ := assignments_of_le i mark s.mem pattern.length hroom
      cases ha.symm.trans ha'

theorem Safe.finds {w : Window} (hs : Safe w.bytes) : Finds w := by
  obtain ⟨out, hscan⟩ := scan_ends w
  obtain ⟨s, hreach, hb⟩ :=
    Ends.invariant (Reached w) (fun _ _ => Reached.next) hscan (Reached.init w)
  cases hs.exit hreach hb
  have hinv := inv_of_scan hscan
  refine ⟨s.mem, s.found, hscan, ?_, hinv.length, hinv.kept⟩
  intro i hi
  have := hi.lt
  exact hs.mem_found hinv (by omega) hi

/-- The scan does what is asked of it on the safe contents, and on no other. -/
theorem scan_finds_iff (w : Window) : Finds w ↔ Safe w.bytes := ⟨Finds.safe, Safe.finds⟩

/-! ## Contents that are not safe -/

section
variable {w : Window} {k : Nat}

/-- The mark behind the first occurrence falls on the second. -/
theorem not_finds_of_twice {rest : List UInt8} (hw : w.bytes = pattern ++ pattern ++ rest) :
    ¬ Finds w := by
  intro h
  have h0 : Holds w.bytes 0 := by
    rw [hw, List.append_assoc]
    exact List.prefix_append _ _
  have h8 : Holds w.bytes 8 := by
    rw [hw, List.append_assoc]
    exact List.prefix_append pattern rest
  have := h.safe.apart 0 8 h0 h8 (by decide)
  omega

theorem not_holds_zeros {back : List UInt8} {m : Nat} (hm : m < k) :
    ¬ Holds (List.replicate k 0 ++ back) m := by
  intro h
  have hhead := holds_iff.mp h 0 (by decide)
  rw [Nat.add_zero, List.getElem?_append_left (by rwa [List.length_replicate]),
    List.getElem?_replicate, if_pos hm] at hhead
  cases hhead

theorem drop_zeros (k : Nat) (back : List UInt8) : (List.replicate k 0 ++ back).drop k = back :=
  List.drop_left' List.length_replicate

/-- The scan leaves the window if no scan comes through. -/
theorem scan_none (h : ∀ mem found, ¬ Inv w.bytes w.bytes.length mem found) : scan w none := by
  obtain ⟨out, hscan⟩ := scan_ends w
  match out with
  | none => exact hscan
  | some (mem, found) => exact absurd (inv_of_scan hscan) (h mem found)

theorem not_finds_of_none (h : scan w none) : ¬ Finds w := by
  intro hf
  obtain ⟨mem, found, hscan, -⟩ := hf.result
  cases h.unique hscan

/-- The comparison reads behind a `j` that is the last byte. -/
theorem scan_none_of_begun (hw : w.bytes = List.replicate k 0 ++ [106]) : scan w none := by
  refine scan_none fun mem found h => ?_
  have hcut : Cut w.bytes k := by
    refine ⟨?_, ?_, ?_⟩
    · rw [hw, List.length_append, List.length_replicate]
      exact Nat.lt_succ_self k
    · rw [hw, drop_zeros]
      exact List.prefix_append [106] _
    · rw [hw, drop_zeros]
      decide
  obtain ⟨m, hm, hle, -⟩ := h.uncut k hcut.1 hcut
  have hh := (h.reported m hm).2.1
  rw [hw] at hh
  exact not_holds_zeros (by omega) hh

/-- The mark of an occurrence that ends with the window is written behind it. -/
theorem scan_none_of_last (hw : w.bytes = List.replicate k 0 ++ pattern) : scan w none := by
  refine scan_none fun mem found h => ?_
  have hk : Holds w.bytes k := by
    rw [Holds, hw, drop_zeros]
  have hlen : w.bytes.length = k + 8 := by
    rw [hw, List.length_append, List.length_replicate, pattern_length]
  rcases h.met k (by omega) hk with hm | ⟨m, hm, hle, -⟩
  · have := (h.reported k hm).2.2
    omega
  · have hh := (h.reported m hm).2.1
    rw [hw] at hh
    exact not_holds_zeros (by omega) hh

end

/-- A window of the size the program asks for. -/
def Window.ofSize (bytes : List UInt8) (h : bytes.length = size) : Window :=
  ⟨bytes, by rw [h]; decide⟩

/-- `jeffnicejeffnice`, then zeros. -/
def twice : Window :=
  .ofSize (pattern ++ pattern ++ List.replicate (size - 16) 0) (by
    rw [List.length_append, List.length_replicate]
    rfl)

/-- Zeros, and a last byte `j`. -/
def begun : Window :=
  .ofSize (List.replicate (size - 1) 0 ++ [106]) (by
    rw [List.length_append, List.length_replicate]
    rfl)

/-- Zeros, then `jeffnice` at the very end. -/
def last : Window :=
  .ofSize (List.replicate (size - 8) 0 ++ pattern) (by
    rw [List.length_append, List.length_replicate]
    rfl)

/-- On each of them the scan fails, on the last two by leaving the window. -/
theorem scan_finds_not_always :
    ¬ Finds twice ∧ (scan begun none ∧ ¬ Finds begun) ∧ (scan last none ∧ ¬ Finds last) := by
  have hbegun : scan begun none := scan_none_of_begun rfl
  have hlast : scan last none := scan_none_of_last rfl
  exact ⟨not_finds_of_twice rfl, ⟨hbegun, not_finds_of_none hbegun⟩,
    ⟨hlast, not_finds_of_none hlast⟩⟩

end KernelLab.MmapRoot
