/-
# `KernelLab.MmapRoot.Scan` — the memory scan of `jeff-mmap.c`

The program maps a window of memory and goes through it byte by byte.  Where it finds
`jeffnice` it reports the place and writes `-19` behind it:

    while (addr < mmapStart + size) {
      count = 0
      if (addr[count++] == 'j' && addr[count++] == 'e' && .. && addr[count++] == 'e') {
        printf(.., addr - mmapStart)
        addr[count++] = '-';  addr[count++] = '1';  addr[count++] = '9';
      }
      addr++
    }

Only `addr` is compared with the end of the window.  The comparison stops at the first
byte that differs, so how far it reads depends on the content.  An access outside of the
window ends the scan with `none`.

Here is the program, and what one iteration does in terms of the content: `Holds` where
the pattern stands, `Cut` where the window ends in the middle of it.  The whole scan is in
`KernelLab.MmapRoot.Finds`.

The window is taken to be where it was asked for, and the content to be changed by
nobody else.
-/
import KernelLab.Lib.Loop

namespace KernelLab.MmapRoot

open KernelLab.Loop

/-! ## The program -/

def mmapStart : Nat := 0x57575000

def size : Nat := 0xf0000000

/-- The bytes of a window that `mmap` has set up at `mmapStart`. -/
structure Window where
  bytes : List UInt8
  fits : mmapStart + bytes.length < 2 ^ 64

/-- `jeffnice` -/
def pattern : List UInt8 := [106, 101, 102, 102, 110, 105, 99, 101]

/-- `-19` -/
def mark : List UInt8 := [45, 49, 57]

/-- The byte at address `a`, if it is in the window. -/
def peek (mem : List UInt8) (a : Nat) : Option UInt8 :=
  if mmapStart ≤ a then mem[a - mmapStart]? else none

/-- A write to address `a`, if it is in the window. -/
def poke (mem : List UInt8) (a : Nat) (b : UInt8) : Option (List UInt8) :=
  if mmapStart ≤ a ∧ a - mmapStart < mem.length then some (mem.set (a - mmapStart) b) else none

/-- `addr[count++] == c && ..`, up to the first byte that differs. -/
def comparison (mem : List UInt8) (addr : Nat) : Nat → List UInt8 → Option Bool
  | _, [] => some true
  | count, c :: cs =>
      (peek mem (addr + count)).bind fun b =>
        if b = c then comparison mem addr (count + 1) cs else some false

/-- `addr[count++] = b; ..` -/
def assignments (mem : List UInt8) (addr : Nat) : Nat → List UInt8 → Option (List UInt8)
  | _, [] => some mem
  | count, b :: bs =>
      (poke mem (addr + count) b).bind fun mem => assignments mem addr (count + 1) bs

structure State where
  addr : Nat
  mem : List UInt8
  /-- the offsets printed -/
  found : List Nat

/-- One iteration.  The loop is left with the memory and the reports, or with `none` when
an access leaves the window. -/
def body (size : Nat) (s : State) : Step State (Option (List UInt8 × List Nat)) :=
  if s.addr < (mmapStart + size) % 2 ^ 64 then
    match comparison s.mem s.addr 0 pattern with
    | none => .exit none
    | some false => .next { s with addr := s.addr + 1 }
    | some true =>
        match assignments s.mem s.addr pattern.length mark with
        | none => .exit none
        | some mem => .next ⟨s.addr + 1, mem, s.found ++ [s.addr - mmapStart]⟩
  else .exit (some (s.mem, s.found))

/-- The scan of a window, as the result it ends with. -/
def scan (w : Window) (out : Option (List UInt8 × List Nat)) : Prop :=
  Ends (body w.bytes.length) ⟨mmapStart, w.bytes, []⟩ out

/-! ## The pattern in the content -/

/-- The pattern occurs at offset `i`. -/
def Holds (bytes : List UInt8) (i : Nat) : Prop := pattern <+: bytes.drop i

/-- The three bytes behind an occurrence at `i`. -/
def Behind (i x : Nat) : Prop := i + 8 ≤ x ∧ x < i + 11

/-- The window ends inside a pattern that begins at `i`. -/
def Cut (bytes : List UInt8) (i : Nat) : Prop :=
  i < bytes.length ∧ bytes.drop i <+: pattern ∧ bytes.drop i ≠ pattern

@[simp] theorem pattern_length : pattern.length = 8 := rfl

/-- The first `k` letters of the pattern stand at offset `i`. -/
def Begins (bytes : List UInt8) (i k : Nat) : Prop := ∀ j < k, bytes[i + j]? = pattern[j]?

theorem holds_iff {bytes : List UInt8} {i : Nat} : Holds bytes i ↔ Begins bytes i 8 := by
  rw [Holds, List.prefix_iff_getElem?]
  constructor
  · intro h j hj
    rw [← List.getElem?_drop, h j hj, List.getElem?_eq_getElem hj]
  · intro h j hj
    rw [List.getElem?_drop, h j hj, List.getElem?_eq_getElem hj]

theorem cut_iff {bytes : List UInt8} {i : Nat} :
    Cut bytes i ↔ ∃ k, 0 < k ∧ k < 8 ∧ bytes.length = i + k ∧ Begins bytes i k := by
  have hlen : (bytes.drop i).length = bytes.length - i := List.length_drop
  constructor
  · rintro ⟨hi, hpre, hne⟩
    have hle : (bytes.drop i).length ≤ 8 := hpre.length_le
    have hlt : (bytes.drop i).length ≠ 8 := fun h => hne (hpre.eq_of_length h)
    refine ⟨bytes.length - i, by omega, by omega, by omega, ?_⟩
    intro j hj
    have hj' : j < (bytes.drop i).length := by omega
    rw [List.prefix_iff_getElem?.mp hpre j hj', ← List.getElem?_drop,
      List.getElem?_eq_getElem hj']
  · rintro ⟨k, hk, hk8, hn, hb⟩
    refine ⟨by omega, List.prefix_iff_getElem?.mpr ?_, ?_⟩
    · intro j hj
      rw [← hb j (by omega), ← List.getElem?_drop, List.getElem?_eq_getElem hj]
    · intro h
      rw [h, pattern_length] at hlen
      omega

theorem Holds.lt {bytes : List UInt8} {i : Nat} (h : Holds bytes i) : i + 8 ≤ bytes.length := by
  have hle : 8 ≤ (bytes.drop i).length := h.length_le
  rw [List.length_drop] at hle
  omega

/-- `j` is no other letter of the pattern. -/
theorem pattern_eq_head {j : Nat} (h : pattern[j]? = pattern[0]?) : j = 0 := by
  match j, h with
  | 0, _ => rfl
  | j + 8, h => cases h
  | 1, h | 2, h | 3, h | 4, h | 5, h | 6, h | 7, h => exact absurd h (by decide)

theorem mark_not_pattern : ∀ b ∈ mark, b ∉ pattern := by
  simp [mark, pattern]

/-- What begins like the pattern does not begin inside an occurrence of it. -/
theorem Holds.gap {bytes : List UInt8} {m i k : Nat} (hm : Holds bytes m) (hi : Begins bytes i k)
    (hk : 0 < k) (hlt : m < i) : m + 8 ≤ i := by
  by_contra hin
  obtain ⟨d, rfl⟩ : ∃ d, i = m + d := ⟨i - m, by omega⟩
  have hd : bytes[m + d]? = pattern[d]? := holds_iff.mp hm d (by omega)
  have h0 : bytes[m + d]? = pattern[0]? := hi 0 hk
  have := pattern_eq_head (hd.symm.trans h0)
  omega

/-! ## The accesses of one iteration -/

theorem peek_add (mem : List UInt8) (x : Nat) : peek mem (mmapStart + x) = mem[x]? := by
  rw [peek, if_pos (Nat.le_add_right _ _), Nat.add_sub_cancel_left]

/-- The comparison goes up to the first letter that is not there, and there it reads. -/
theorem comparison_spec (mem : List UInt8) (i : Nat) (cs : List UInt8) : ∀ count,
    ∃ k ≤ cs.length, (∀ j < k, mem[i + count + j]? = cs[j]?) ∧
      (k < cs.length → mem[i + count + k]? ≠ cs[k]?) ∧
      comparison mem (mmapStart + i) count cs =
        if k = cs.length then some true else mem[i + count + k]?.map fun _ => false := by
  induction cs with
  | nil =>
      intro count
      refine ⟨0, le_rfl, ?_, ?_, rfl⟩
      · intro j hj
        cases hj
      · intro hlt
        cases hlt
  | cons c cs ih =>
      intro count
      rw [comparison, Nat.add_assoc, peek_add]
      by_cases hb : mem[i + count]? = some c
      · obtain ⟨k, hk, heq, hne, hres⟩ := ih (count + 1)
        have hadd : ∀ j, i + count + (j + 1) = i + (count + 1) + j := fun j => by omega
        refine ⟨k + 1, Nat.succ_le_succ hk, ?_, ?_, ?_⟩
        · intro j hj
          cases j with
          | zero => exact hb
          | succ j =>
              rw [hadd]
              exact heq j (Nat.lt_of_succ_lt_succ hj)
        · intro hlt
          rw [hadd]
          exact hne (Nat.lt_of_succ_lt_succ hlt)
        · rw [hb, Option.bind_some, if_pos rfl, hres, hadd, List.length_cons]
          simp only [Nat.add_right_cancel_iff]
      · refine ⟨0, Nat.zero_le _, ?_, fun _ => hb, ?_⟩
        · intro j hj
          cases hj
        · rw [List.length_cons, if_neg (Nat.zero_ne_add_one _), Nat.add_zero]
          cases hm : mem[i + count]? with
          | none => rfl
          | some b =>
              rw [Option.bind_some, if_neg fun hbc => hb (hm.trans (congrArg some hbc))]
              rfl

section
variable {mem : List UInt8} {i : Nat}

theorem holds_of_comparison (h : comparison mem (mmapStart + i) 0 pattern = some true) :
    Holds mem i := by
  obtain ⟨k, hk, heq, -, hres⟩ := comparison_spec mem i pattern 0
  rw [h] at hres
  split at hres
  case isTrue hlen => exact holds_iff.mpr fun j hj => heq j (by rwa [hlen])
  case isFalse =>
      obtain ⟨-, -, hb⟩ := Option.map_eq_some_iff.mp hres.symm
      cases hb

theorem cut_of_comparison (hi : i < mem.length)
    (h : comparison mem (mmapStart + i) 0 pattern = none) : Cut mem i := by
  obtain ⟨k, hk, heq, -, hres⟩ := comparison_spec mem i pattern 0
  rw [h] at hres
  split at hres
  case isTrue => cases hres
  case isFalse hlen =>
      have hout := List.getElem?_eq_none_iff.mp (Option.map_eq_none_iff.mp hres.symm)
      rw [pattern_length] at hk hlen
      refine cut_iff.mpr ⟨mem.length - i, by omega, by omega, by omega, ?_⟩
      intro j hj
      exact heq j (by omega)

theorem not_of_comparison (h : comparison mem (mmapStart + i) 0 pattern = some false) :
    ¬ Holds mem i ∧ ¬ Cut mem i := by
  obtain ⟨k, hk, -, hne, hres⟩ := comparison_spec mem i pattern 0
  rw [h] at hres
  split at hres
  case isTrue => cases hres
  case isFalse hlen =>
      have hklt : k < 8 := lt_of_le_of_ne hk hlen
      obtain ⟨b, hb, -⟩ := Option.map_eq_some_iff.mp hres.symm
      obtain ⟨hin, -⟩ := List.getElem?_eq_some_iff.mp hb
      constructor
      · intro hh
        exact hne hklt (holds_iff.mp hh k hklt)
      · intro hc
        obtain ⟨k', -, -, hlen', hbeg⟩ := cut_iff.mp hc
        exact hne hklt (hbeg k (by omega))

end

/-- The assignments go through if there is room, and write only their bytes. -/
theorem assignments_of_le (i : Nat) (bs : List UInt8) : ∀ (mem : List UInt8) (count : Nat),
    i + count + bs.length ≤ mem.length →
      ∃ mem', assignments mem (mmapStart + i) count bs = some mem' ∧
        mem'.length = mem.length ∧
        (∀ x, x < i + count ∨ i + count + bs.length ≤ x → mem'[x]? = mem[x]?) ∧
        ∀ j < bs.length, mem'[i + count + j]? = bs[j]? := by
  induction bs with
  | nil =>
      intro mem count _
      exact ⟨mem, rfl, rfl, fun x _ => rfl, fun j hj => absurd hj (Nat.not_lt_zero j)⟩
  | cons b bs ih =>
      intro mem count hle
      rw [List.length_cons] at hle ⊢
      have hlt : i + count < mem.length := by omega
      obtain ⟨mem', hrest, hlen, hkept, hset⟩ :=
        ih (mem.set (i + count) b) (count + 1) (by rw [List.length_set]; omega)
      refine ⟨mem', ?_, hlen.trans List.length_set, ?_, ?_⟩
      · rw [assignments, Nat.add_assoc, poke, Nat.add_sub_cancel_left,
          if_pos ⟨Nat.le_add_right _ _, hlt⟩, Option.bind_some, hrest]
      · intro x hx
        rw [hkept x (by omega), List.getElem?_set_ne (by omega)]
      · intro j hj
        cases j with
        | zero => rw [hkept _ (by omega), Nat.add_zero, List.getElem?_set_self hlt,
            List.getElem?_cons_zero]
        | succ j =>
            have hadd : i + count + (j + 1) = i + (count + 1) + j := by omega
            rw [hadd, hset j (Nat.lt_of_succ_lt_succ hj), List.getElem?_cons_succ]

/-- They go through only if there is. -/
theorem assignments_le (i : Nat) (bs : List UInt8) : ∀ {mem mem' : List UInt8} {count : Nat},
    assignments mem (mmapStart + i) count bs = some mem' → bs ≠ [] →
      i + count + bs.length ≤ mem.length := by
  induction bs with
  | nil =>
      intro mem mem' count _ hne
      exact absurd rfl hne
  | cons b bs ih =>
      intro mem mem' count h _
      rw [assignments, Nat.add_assoc, poke, Nat.add_sub_cancel_left] at h
      obtain ⟨mem₁, hp, h⟩ := Option.bind_eq_some_iff.mp h
      split at hp
      case isTrue hle =>
          cases hp
          cases bs with
          | nil => exact hle.2
          | cons b' bs =>
              have := ih h (List.cons_ne_nil _ _)
              rw [List.length_set] at this
              rw [List.length_cons]
              omega
      case isFalse => cases hp

/-- The mark: all of it is inside, and it is written behind `i` and nowhere else. -/
theorem assignments_mark {mem mem' : List UInt8} {i : Nat}
    (h : assignments mem (mmapStart + i) pattern.length mark = some mem') :
    i + 11 ≤ mem.length ∧ mem'.length = mem.length ∧
      (∀ x, ¬ Behind i x → mem'[x]? = mem[x]?) ∧
      ∀ x, Behind i x → ∃ b ∈ mark, mem'[x]? = some b := by
  have hroom : i + 8 + 3 ≤ mem.length := assignments_le i mark h (by decide)
  obtain ⟨mem₁, h₁, hlen, hkept, hset⟩ := assignments_of_le i mark mem pattern.length hroom
  cases h.symm.trans h₁
  refine ⟨hroom, hlen, ?_, ?_⟩
  · intro x hx
    refine hkept x ?_
    rw [Behind] at hx
    show x < i + 8 ∨ i + 8 + 3 ≤ x
    omega
  · rintro x ⟨hle, hlt⟩
    obtain ⟨j, rfl⟩ : ∃ j, x = i + 8 + j := ⟨x - (i + 8), by omega⟩
    have hj : j < mark.length := by
      show j < 3
      omega
    exact ⟨mark[j], List.getElem_mem hj, (hset j hj).trans (List.getElem?_eq_getElem hj)⟩

section
variable {n : Nat} {s s' : State} {r : Option (List UInt8 × List Nat)}

theorem body_next (h : body n s = .next s') :
    s.addr < (mmapStart + n) % 2 ^ 64 ∧
      (comparison s.mem s.addr 0 pattern = some false ∧ s' = { s with addr := s.addr + 1 } ∨
        comparison s.mem s.addr 0 pattern = some true ∧
          ∃ mem, assignments s.mem s.addr pattern.length mark = some mem ∧
            s' = ⟨s.addr + 1, mem, s.found ++ [s.addr - mmapStart]⟩) := by
  rw [body] at h
  split at h
  case isTrue hlt =>
      refine ⟨hlt, ?_⟩
      split at h
      case h_1 => cases h
      case h_2 hc =>
          cases h
          exact .inl ⟨hc, rfl⟩
      case h_3 hc =>
          split at h
          case h_1 => cases h
          case h_2 mem ha =>
              cases h
              exact .inr ⟨hc, mem, ha, rfl⟩
  case isFalse => cases h

theorem body_exit (h : body n s = .exit r) :
    ¬ s.addr < (mmapStart + n) % 2 ^ 64 ∧ r = some (s.mem, s.found) ∨
      s.addr < (mmapStart + n) % 2 ^ 64 ∧ r = none ∧
        (comparison s.mem s.addr 0 pattern = none ∨
          comparison s.mem s.addr 0 pattern = some true ∧
            assignments s.mem s.addr pattern.length mark = none) := by
  rw [body] at h
  split at h
  case isTrue hlt =>
      refine .inr ⟨hlt, ?_⟩
      split at h
      case h_1 hc =>
          cases h
          exact ⟨rfl, .inl hc⟩
      case h_2 => cases h
      case h_3 hc =>
          split at h
          case h_1 ha =>
              cases h
              exact ⟨rfl, .inr ⟨hc, ha⟩⟩
          case h_2 => cases h
  case isFalse hlt =>
      cases h
      exact .inl ⟨hlt, rfl⟩

end

end KernelLab.MmapRoot
