/-
# `KernelLab.Deadline.CpuDl` — the heap of the CPUs' earliest deadlines

`cpudeadline.c` keeps, for every CPU with a deadline task, the earliest deadline on it, in
a binary heap with the latest of these on top: the CPU to push a task to.

    elements[0 .. size)   the heap, each with its CPU
    cpu_to_idx            where a CPU is in it, or IDX_INVALID
    free_cpus             the CPUs that are not in it

Every exchange of two elements moves both the elements and the entries of their CPUs.

## What is proved

`cpudl_represents`: after every sequence of `cpudl_set`, with deadlines below `2 ^ 63`, the
three together are the map of what was set last for each CPU, and the heap is one.

`cpudl_find_best`: so `cpudl_find` answers with a free CPU of the task's, or else with the
CPU whose deadline is the latest of all and later than the task's; and it finds nothing
only if there is no free one and the latest will not do.

The bound on the deadlines is the code's own: a new element is entered with deadline 0 and
then changed, and a deadline from `2 ^ 63` on counts as before 0, so it is not moved up.
-/
import KernelLab.Lib.Heap
import KernelLab.Lib.Serial

namespace KernelLab.Deadline

open KernelLab.Heap KernelLab.Serial

/-! ## The program -/

/-- `struct array_item` -/
structure ArrayItem where
  dl : Nat
  cpu : Nat

/-- `struct cpudl`; `IDX_INVALID` is `none`. -/
structure Cpudl where
  size : Nat
  cpu_to_idx : Nat → Option Nat
  elements : Nat → ArrayItem
  free_cpus : Finset Nat

def cpudl_exchange (cp : Cpudl) (a b : Nat) : Cpudl :=
  { cp with
    elements := cp.elements ∘ Equiv.swap a b
    cpu_to_idx := cp.cpu_to_idx ∘ Equiv.swap (cp.elements a).cpu (cp.elements b).cpu }

/-- `if ((c < cp->size) && dl_time_before(elements[a].dl, elements[c].dl)) a = c;` -/
def larger (cp : Cpudl) (a c : Nat) : Nat :=
  if c < cp.size ∧ before (cp.elements a).dl (cp.elements c).dl then c else a

/-- The greatest of `idx` and its children. -/
def largest (cp : Cpudl) (idx : Nat) : Nat :=
  larger cp (larger cp idx (2 * idx + 1)) (2 * idx + 2)

theorem larger_cases (cp : Cpudl) (a c : Nat) :
    larger cp a c = a ∨ larger cp a c = c ∧ c < cp.size := by
  unfold larger
  split
  case isTrue h => exact .inr ⟨rfl, h.1⟩
  case isFalse => exact .inl rfl

theorem largest_cases (cp : Cpudl) (idx : Nat) :
    largest cp idx = idx ∨
      (largest cp idx = 2 * idx + 1 ∨ largest cp idx = 2 * idx + 2) ∧
        largest cp idx < cp.size := by
  unfold largest
  rcases larger_cases cp (larger cp idx (2 * idx + 1)) (2 * idx + 2) with h | ⟨h, hlt⟩
  · rw [h]
    rcases larger_cases cp idx (2 * idx + 1) with h | ⟨h, hlt⟩
    · exact .inl h
    · rw [h]
      exact .inr ⟨.inl rfl, hlt⟩
  · rw [h]
    exact .inr ⟨.inr rfl, hlt⟩

def cpudl_heapify (cp : Cpudl) (idx : Nat) : Cpudl :=
  if largest cp idx = idx then cp
  else cpudl_heapify (cpudl_exchange cp (largest cp idx) idx) (largest cp idx)
termination_by cp.size - idx
decreasing_by
  show cp.size - largest cp idx < cp.size - idx
  rcases largest_cases cp idx with h | ⟨_, _⟩ <;> omega

/-- `while (idx > 0 && dl_time_before(parent, idx)) { exchange; idx = parent(idx); }` -/
def siftUp (cp : Cpudl) (idx : Nat) : Cpudl × Nat :=
  if 0 < idx ∧ before (cp.elements (parent idx)).dl (cp.elements idx).dl then
    siftUp (cpudl_exchange cp idx (parent idx)) (parent idx)
  else (cp, idx)
termination_by idx
decreasing_by exact parent_lt (by omega)

def setDl (cp : Cpudl) (idx new_dl : Nat) : Cpudl :=
  { cp with
    elements := Function.update cp.elements idx { cp.elements idx with dl := new_dl } }

def cpudl_change_key (cp : Cpudl) (idx new_dl : Nat) : Cpudl :=
  if before new_dl (cp.elements idx).dl then cpudl_heapify (setDl cp idx new_dl) idx
  else (siftUp (setDl cp idx new_dl) idx).1

def cpudl_maximum (cp : Cpudl) : Nat := (cp.elements 0).cpu

/-- The new element of a CPU that had none, with the deadline 0 it is entered with. -/
def enter (cp : Cpudl) (cpu : Nat) : Cpudl :=
  { cp with
    size := cp.size + 1
    elements := Function.update cp.elements cp.size ⟨0, cpu⟩
    cpu_to_idx := Function.update cp.cpu_to_idx cpu (some cp.size) }

/-- The last element in the place of the one at `old_idx`, whose CPU is `cpu`. -/
def dropAt (cp : Cpudl) (cpu old_idx : Nat) : Cpudl :=
  { cp with
    elements := Function.update cp.elements old_idx (cp.elements (cp.size - 1))
    size := cp.size - 1
    cpu_to_idx :=
      Function.update
        (Function.update cp.cpu_to_idx (cp.elements (cp.size - 1)).cpu (some old_idx)) cpu none }

def cpudl_set (cp : Cpudl) (cpu dl : Nat) (is_valid : Bool) : Cpudl :=
  match is_valid, cp.cpu_to_idx cpu with
  | false, none => cp
  | false, some old_idx =>
      let (cp, old_idx) := siftUp (dropAt cp cpu old_idx) old_idx
      cpudl_heapify { cp with free_cpus := insert cpu cp.free_cpus } old_idx
  | true, none =>
      let cp := enter cp cpu
      let cp := cpudl_change_key cp (cp.size - 1) dl
      { cp with free_cpus := cp.free_cpus.erase cpu }
  | true, some old_idx => cpudl_change_key cp old_idx dl

def cpudl_init (NR_CPUS : Nat) : Cpudl where
  size := 0
  cpu_to_idx := fun _ => none
  elements := fun _ => ⟨0, 0⟩
  free_cpus := Finset.range NR_CPUS

/-- The best CPU, if there is one, and what is left in `later_mask`; the first of a mask is
what `cpumask_any` takes. -/
def cpudl_find (cp : Cpudl) (cpu_active_mask cpus_allowed : Finset Nat) (deadline : Nat)
    (later_mask : Option (Finset Nat)) : Option Nat × Option (Finset Nat) :=
  let free := (cp.free_cpus ∩ cpus_allowed) ∩ cpu_active_mask
  if h : later_mask.isSome ∧ free.Nonempty then (some (free.min' h.2), some free)
  else
    let later_mask := later_mask.map fun _ => ∅
    if cpudl_maximum cp ∈ cpus_allowed ∧ before deadline (cp.elements 0).dl then
      (some (cpudl_maximum cp), later_mask.map fun mask => insert (cpudl_maximum cp) mask)
    else (none, later_mask)

/-! ## What the structure stands for -/

/-- The deadlines, as the keys of a heap. -/
def keys (cp : Cpudl) (i : Nat) : Nat := (cp.elements i).dl

/-- The elements are the CPUs with a deadline in `m`, each at the place it is said to be. -/
structure Holds (cp : Cpudl) (m : Nat → Option Nat) : Prop where
  small : ∀ i, keys cp i < 2 ^ 63
  idx : ∀ i < cp.size, cp.cpu_to_idx (cp.elements i).cpu = some i
  back : ∀ cpu i, cp.cpu_to_idx cpu = some i → i < cp.size ∧ (cp.elements i).cpu = cpu
  dl : ∀ i < cp.size, m (cp.elements i).cpu = some (cp.elements i).dl
  absent : ∀ cpu, m cpu = none ↔ cp.cpu_to_idx cpu = none

/-- All of it: the heap is one, and the other CPUs are free. -/
structure Represents (NR_CPUS : Nat) (cp : Cpudl) (m : Nat → Option Nat) : Prop extends
    Holds cp m where
  heap : IsHeap (keys cp) cp.size
  free : ∀ cpu, cpu ∈ cp.free_cpus ↔ cpu < NR_CPUS ∧ m cpu = none

/-- What was set last, for each CPU. -/
def setLast (m : Nat → Option Nat) (cpu dl : Nat) (is_valid : Bool) : Nat → Option Nat :=
  Function.update m cpu (if is_valid then some dl else none)

theorem swap_lt {a b i n : Nat} (ha : a < n) (hb : b < n) (hi : i < n) : Equiv.swap a b i < n := by
  rw [Equiv.swap_apply_def]
  split
  · exact hb
  · split
    · exact ha
    · exact hi

namespace Holds

variable {cp : Cpudl} {m : Nat → Option Nat} (h : Holds cp m)

include h

theorem before_iff (i j : Nat) :
    before (cp.elements i).dl (cp.elements j).dl ↔ keys cp i < keys cp j :=
  before_iff_lt (h.small i) (h.small j)

theorem cpu_inj {i j : Nat} (hi : i < cp.size) (hj : j < cp.size)
    (hcpu : (cp.elements i).cpu = (cp.elements j).cpu) : i = j := by
  have hidx := h.idx i hi
  rw [hcpu, h.idx j hj] at hidx
  exact (Option.some.inj hidx).symm

/-- Exchanging two elements and exchanging the names of their CPUs is the same. -/
theorem swap_cpu {a b : Nat} (ha : a < cp.size) (hb : b < cp.size) {i : Nat} (hi : i < cp.size) :
    Equiv.swap (cp.elements a).cpu (cp.elements b).cpu (cp.elements i).cpu =
      (cp.elements (Equiv.swap a b i)).cpu := by
  by_cases hia : i = a
  · rw [hia, Equiv.swap_apply_left, Equiv.swap_apply_left]
  · by_cases hib : i = b
    · rw [hib, Equiv.swap_apply_right, Equiv.swap_apply_right]
    · rw [Equiv.swap_apply_of_ne_of_ne hia hib, Equiv.swap_apply_of_ne_of_ne]
      · exact fun heq => hia (h.cpu_inj hi ha heq)
      · exact fun heq => hib (h.cpu_inj hi hb heq)

theorem exchange {a b : Nat} (ha : a < cp.size) (hb : b < cp.size) :
    Holds (cpudl_exchange cp a b) m where
  small i := h.small (Equiv.swap a b i)
  idx := by
    intro i hi
    show cp.cpu_to_idx (Equiv.swap _ _ (cp.elements (Equiv.swap a b i)).cpu) = some i
    rw [h.swap_cpu ha hb (swap_lt ha hb hi), Equiv.swap_apply_self]
    exact h.idx i hi
  back := by
    intro cpu i hcpu
    obtain ⟨hi, heq⟩ := h.back _ i hcpu
    refine ⟨hi, ?_⟩
    show (cp.elements (Equiv.swap a b i)).cpu = cpu
    rw [← h.swap_cpu ha hb hi, heq, Equiv.swap_apply_self]
  dl := by
    intro i hi
    exact h.dl _ (swap_lt ha hb hi)
  absent := by
    intro cpu
    show m cpu = none ↔ cp.cpu_to_idx (Equiv.swap _ _ cpu) = none
    rw [← h.absent]
    -- the two CPUs that change places both have a deadline
    by_cases hca : cpu = (cp.elements a).cpu
    · rw [hca, Equiv.swap_apply_left, h.dl a ha, h.dl b hb]
      simp
    · by_cases hcb : cpu = (cp.elements b).cpu
      · rw [hcb, Equiv.swap_apply_right, h.dl a ha, h.dl b hb]
        simp
      · rw [Equiv.swap_apply_of_ne_of_ne hca hcb]

theorem le_larger (a c : Nat) : keys cp a ≤ keys cp (larger cp a c) := by
  unfold larger
  split
  case isTrue hc => exact ((h.before_iff a c).mp hc.2).le
  case isFalse => exact le_rfl

theorem child_le_larger (a : Nat) {c : Nat} (hc : c < cp.size) :
    keys cp c ≤ keys cp (larger cp a c) := by
  unfold larger
  split
  case isTrue => exact le_rfl
  case isFalse hn =>
      rw [h.before_iff] at hn
      exact not_lt.mp fun hlt => hn ⟨hc, hlt⟩

theorem lt_larger {a c : Nat} (hne : larger cp a c ≠ a) : keys cp a < keys cp (larger cp a c) := by
  unfold larger at hne ⊢
  split
  case isTrue hc => exact (h.before_iff a c).mp hc.2
  case isFalse hc => exact absurd (if_neg hc) hne

theorem child_le_largest {idx j : Nat} (hj : 0 < j) (hlt : j < cp.size) (hpar : parent j = idx) :
    keys cp j ≤ keys cp (largest cp idx) := by
  rcases (parent_eq_iff hj).mp hpar with rfl | rfl
  · exact (h.child_le_larger idx hlt).trans (h.le_larger _ _)
  · exact h.child_le_larger _ hlt

theorem lt_largest {idx : Nat} (hne : largest cp idx ≠ idx) :
    keys cp idx < keys cp (largest cp idx) := by
  unfold largest at hne ⊢
  by_cases hfirst : larger cp idx (2 * idx + 1) = idx
  · rw [hfirst] at hne ⊢
    exact h.lt_larger hne
  · exact (h.lt_larger hfirst).trans_le (h.le_larger _ _)

end Holds

/-! ## The two ways of moving an element -/

/-- `cp'` is `cp` with its elements in the order of a heap. -/
structure Settles (cp cp' : Cpudl) (m : Nat → Option Nat) : Prop where
  holds : Holds cp' m
  heap : IsHeap (keys cp') cp'.size
  free : cp'.free_cpus = cp.free_cpus

theorem heapify_settles {cp : Cpudl} {m : Nat → Option Nat} {idx : Nat} (h : Holds cp m)
    (hapart : Apart (keys cp) cp.size idx) (hover : Over (keys cp) idx) :
    Settles cp (cpudl_heapify cp idx) m := by
  fun_induction cpudl_heapify cp idx with
  | case1 cp idx heq =>
      refine ⟨h, hapart.isHeap hover fun j hj hlt hpar => ?_, rfl⟩
      have hle := h.child_le_largest hj hlt hpar
      rwa [heq] at hle
  | case2 cp idx hne ih =>
      obtain ⟨hchild, hlt⟩ := (largest_cases cp idx).resolve_left hne
      have hpos : 0 < largest cp idx := by omega
      have hpar : parent (largest cp idx) = idx := (parent_eq_iff hpos).mpr hchild
      have hidx : idx < cp.size := by omega
      obtain ⟨hapart', hover'⟩ := hapart.down hover hpos hpar (h.lt_largest hne)
        (fun j hj hjn hpj => h.child_le_largest hj hjn hpj) hlt
      obtain ⟨hholds, hheap, hfree⟩ := ih (h.exchange hlt hidx) hapart' hover'
      exact ⟨hholds, hheap, hfree⟩

/-- Moved up as far as it goes, the element is in order with its parent, and with its
children too if it moved at all or was in order with them before. -/
theorem siftUp_spec {cp : Cpudl} {m : Nat → Option Nat} {idx : Nat} (h : Holds cp m)
    (hapart : Apart (keys cp) cp.size idx) (hidx : idx < cp.size) :
    Holds (siftUp cp idx).1 m ∧ (siftUp cp idx).1.free_cpus = cp.free_cpus ∧
      Apart (keys (siftUp cp idx).1) (siftUp cp idx).1.size (siftUp cp idx).2 ∧
      Over (keys (siftUp cp idx).1) (siftUp cp idx).2 ∧
      (Under (keys cp) cp.size idx →
        Under (keys (siftUp cp idx).1) (siftUp cp idx).1.size (siftUp cp idx).2) := by
  fun_induction siftUp cp idx with
  | case1 cp idx hlt ih =>
      have hp := parent_lt hlt.1
      have hpar := hp.trans hidx
      obtain ⟨hapart', hunder'⟩ :=
        hapart.up hlt.1 hidx ((h.before_iff (parent idx) idx).mp hlt.2)
      obtain ⟨hholds, hfree, ha, ho, hu⟩ := ih (h.exchange hidx hpar) hapart' hpar
      exact ⟨hholds, hfree, ha, ho, fun _ => hu hunder'⟩
  | case2 cp idx hn =>
      refine ⟨h, rfl, hapart, fun hpos => ?_, id⟩
      rw [h.before_iff] at hn
      exact not_lt.mp fun hlt => hn ⟨hpos, hlt⟩

theorem siftUp_of_over {cp : Cpudl} {m : Nat → Option Nat} {idx : Nat} (h : Holds cp m)
    (hover : Over (keys cp) idx) : siftUp cp idx = (cp, idx) := by
  rw [siftUp, if_neg]
  rintro ⟨hpos, hlt⟩
  exact absurd ((h.before_iff _ _).mp hlt) (not_lt.mpr (hover hpos))

/-! ## Setting a deadline -/

theorem keys_setDl (cp : Cpudl) (idx new_dl : Nat) :
    keys (setDl cp idx new_dl) = Function.update (keys cp) idx new_dl := by
  funext i
  by_cases hi : i = idx
  · subst hi
    simp [keys, setDl]
  · simp [keys, setDl, hi]

theorem Holds.setDl {cp : Cpudl} {m : Nat → Option Nat} {idx new_dl : Nat} (h : Holds cp m)
    (hidx : idx < cp.size) (hnew : new_dl < 2 ^ 63) :
    Holds (setDl cp idx new_dl)
      (Function.update m (cp.elements idx).cpu (some new_dl)) := by
  have hcpu : ∀ i, ((Deadline.setDl cp idx new_dl).elements i).cpu = (cp.elements i).cpu := by
    intro i
    by_cases hi : i = idx
    · subst hi
      simp [Deadline.setDl]
    · simp [Deadline.setDl, hi]
  refine ⟨?_, ?_, ?_, ?_, ?_⟩
  · intro i
    rw [keys_setDl]
    by_cases hi : i = idx
    · rwa [hi, Function.update_self]
    · rw [Function.update_of_ne hi]
      exact h.small i
  · intro i hi
    rw [hcpu]
    exact h.idx i hi
  · intro cpu i hi
    rw [hcpu]
    exact h.back cpu i hi
  · intro i hi
    rw [hcpu]
    by_cases hii : i = idx
    · subst hii
      simp [Deadline.setDl]
    · rw [Function.update_of_ne fun heq => hii (h.cpu_inj hi hidx heq)]
      simpa [Deadline.setDl, hii] using h.dl i hi
  · intro cpu
    show _ ↔ cp.cpu_to_idx cpu = none
    by_cases hc : cpu = (cp.elements idx).cpu
    · subst hc
      simp [h.idx idx hidx]
    · rw [Function.update_of_ne hc]
      exact h.absent cpu

theorem change_key_settles {cp : Cpudl} {m : Nat → Option Nat} {idx new_dl : Nat}
    (h : Holds cp m) (hheap : IsHeap (keys cp) cp.size) (hidx : idx < cp.size)
    (hnew : new_dl < 2 ^ 63) :
    Settles cp (cpudl_change_key cp idx new_dl)
      (Function.update m (cp.elements idx).cpu (some new_dl)) := by
  have hset := h.setDl hidx hnew
  have hapart : Apart (keys (setDl cp idx new_dl)) cp.size idx := by
    rw [keys_setDl]
    exact hheap.apart_update idx new_dl
  unfold cpudl_change_key
  split
  case isTrue hlt =>
      -- earlier than before, and so still below its parent
      have hle : new_dl < keys cp idx := (before_iff_lt hnew (h.small idx)).mp hlt
      have hover : Over (keys (setDl cp idx new_dl)) idx := by
        intro hpos
        have hp := parent_lt hpos
        rw [keys_setDl, Function.update_self, Function.update_of_ne hp.ne]
        exact hle.le.trans (hheap idx hpos hidx)
      obtain ⟨hholds, hheap', hfree⟩ := heapify_settles hset hapart hover
      exact ⟨hholds, hheap', hfree⟩
  case isFalse hge =>
      -- no earlier than before, and so still above its children
      have hle : keys cp idx ≤ new_dl :=
        not_lt.mp fun hlt => hge ((before_iff_lt hnew (h.small idx)).mpr hlt)
      have hunder : Under (keys (setDl cp idx new_dl)) cp.size idx := by
        intro j hj hjn hpar
        have hji := parent_lt hj
        rw [keys_setDl, Function.update_self, Function.update_of_ne (by omega)]
        calc keys cp j ≤ keys cp (parent j) := hheap j hj hjn
          _ = keys cp idx := by rw [hpar]
          _ ≤ new_dl := hle
      obtain ⟨hholds, hfree, ha, ho, hu⟩ := siftUp_spec hset hapart hidx
      exact ⟨hholds, ha.isHeap ho (hu hunder), hfree⟩

theorem keys_enter (cp : Cpudl) (cpu : Nat) :
    keys (enter cp cpu) = Function.update (keys cp) cp.size 0 := by
  funext i
  by_cases hi : i = cp.size
  · subst hi
    simp [keys, enter]
  · simp [keys, enter, hi]

theorem Holds.enter {cp : Cpudl} {m : Nat → Option Nat} {cpu : Nat} (h : Holds cp m)
    (hcpu : cp.cpu_to_idx cpu = none) :
    Holds (enter cp cpu) (Function.update m cpu (some 0)) := by
  have hold : ∀ i < cp.size, (cp.elements i).cpu ≠ cpu := by
    rintro i hi rfl
    rw [h.idx i hi] at hcpu
    cases hcpu
  refine ⟨?_, ?_, ?_, ?_, ?_⟩
  · intro i
    rw [keys_enter]
    by_cases hi : i = cp.size
    · rw [hi, Function.update_self]
      omega
    · rw [Function.update_of_ne hi]
      exact h.small i
  · intro i hi
    by_cases hii : i = cp.size
    · subst hii
      simp [Deadline.enter]
    · have hlt : i < cp.size := by
        simp only [Deadline.enter] at hi
        omega
      simp [Deadline.enter, hii, hold i hlt, h.idx i hlt]
  · intro c i hi
    by_cases hc : c = cpu
    · subst hc
      simp only [Deadline.enter, Function.update_self, Option.some.injEq] at hi
      subst hi
      simp [Deadline.enter]
    · simp only [Deadline.enter, Function.update_of_ne hc] at hi
      obtain ⟨hlt, heq⟩ := h.back c i hi
      simp only [Deadline.enter, Function.update_of_ne hlt.ne]
      exact ⟨by omega, heq⟩
  · intro i hi
    by_cases hii : i = cp.size
    · subst hii
      simp [Deadline.enter]
    · have hlt : i < cp.size := by
        simp only [Deadline.enter] at hi
        omega
      simp [Deadline.enter, hii, hold i hlt, h.dl i hlt]
  · intro c
    by_cases hc : c = cpu
    · subst hc
      simp [Deadline.enter]
    · simp [Deadline.enter, hc, h.absent c]

theorem keys_dropAt (cp : Cpudl) (cpu old_idx : Nat) :
    keys (dropAt cp cpu old_idx) = Function.update (keys cp) old_idx (keys cp (cp.size - 1)) := by
  funext i
  by_cases hi : i = old_idx
  · subst hi
    simp [keys, dropAt]
  · simp [keys, dropAt, hi]

section DropAt

variable {cp : Cpudl} {m : Nat → Option Nat} {cpu old_idx : Nat}

/-- Where an element of the shorter heap was before. -/
theorem Holds.dropAt_origin (h : Holds cp m) (hcpu : cp.cpu_to_idx cpu = some old_idx) {i : Nat}
    (hi : i < cp.size - 1) :
    ∃ j < cp.size, (cp.elements j).cpu ≠ cpu ∧
      (dropAt cp cpu old_idx).elements i = cp.elements j ∧
      (dropAt cp cpu old_idx).cpu_to_idx (cp.elements j).cpu = some i := by
  obtain ⟨hold, hcpu'⟩ := h.back cpu old_idx hcpu
  have hlast : cp.size - 1 < cp.size := by omega
  have hne : ∀ j < cp.size, j ≠ old_idx → (cp.elements j).cpu ≠ cpu := by
    intro j hj hj' heq
    exact hj' (h.cpu_inj hj hold (heq.trans hcpu'.symm))
  by_cases hii : i = old_idx
  · have hj : cp.size - 1 ≠ old_idx := by omega
    subst hii
    refine ⟨cp.size - 1, hlast, hne _ hlast hj, by simp [dropAt], ?_⟩
    simp [dropAt, hne _ hlast hj]
  · have hilt : i < cp.size := by omega
    refine ⟨i, hilt, hne i hilt hii, by simp [dropAt, hii], ?_⟩
    have hil : (cp.elements i).cpu ≠ (cp.elements (cp.size - 1)).cpu := by
      intro heq
      have := h.cpu_inj hilt hlast heq
      omega
    simp [dropAt, hne i hilt hii, hil, h.idx i hilt]

theorem Holds.dropAt_back (h : Holds cp m) (hcpu : cp.cpu_to_idx cpu = some old_idx) {c i : Nat}
    (hi : (dropAt cp cpu old_idx).cpu_to_idx c = some i) :
    i < cp.size - 1 ∧ ((dropAt cp cpu old_idx).elements i).cpu = c := by
  obtain ⟨hold, hcpu'⟩ := h.back cpu old_idx hcpu
  have hc : c ≠ cpu := by
    rintro rfl
    simp [dropAt] at hi
  by_cases hcl : c = (cp.elements (cp.size - 1)).cpu
  · simp only [dropAt, Function.update_of_ne hc] at hi
    rw [hcl, Function.update_self] at hi
    obtain rfl := Option.some.inj hi
    have hne : old_idx ≠ cp.size - 1 := by
      intro heq
      exact hc (by rw [hcl, ← heq, hcpu'])
    exact ⟨by omega, by simp [dropAt, hcl]⟩
  · simp only [dropAt, Function.update_of_ne hc, Function.update_of_ne hcl] at hi
    obtain ⟨hlt, heq⟩ := h.back c i hi
    have hio : i ≠ old_idx := by
      rintro rfl
      exact hc (heq.symm.trans hcpu')
    have hil : i ≠ cp.size - 1 := by
      rintro rfl
      exact hcl heq.symm
    simp only [dropAt, Function.update_of_ne hio]
    exact ⟨by omega, heq⟩

theorem Holds.dropAt (h : Holds cp m) (hcpu : cp.cpu_to_idx cpu = some old_idx) :
    Holds (dropAt cp cpu old_idx) (Function.update m cpu none) := by
  obtain ⟨hold, -⟩ := h.back cpu old_idx hcpu
  have hlast : cp.size - 1 < cp.size := by omega
  refine ⟨?_, ?_, fun c i => h.dropAt_back hcpu, ?_, ?_⟩
  · intro i
    rw [keys_dropAt]
    by_cases hi : i = old_idx
    · rw [hi, Function.update_self]
      exact h.small _
    · rw [Function.update_of_ne hi]
      exact h.small i
  · intro i hi
    obtain ⟨j, -, -, helem, hidx⟩ := h.dropAt_origin hcpu hi
    rw [helem]
    exact hidx
  · intro i hi
    obtain ⟨j, hj, hc, helem, -⟩ := h.dropAt_origin hcpu hi
    rw [helem, Function.update_of_ne hc]
    exact h.dl j hj
  · intro c
    by_cases hc : c = cpu
    · subst hc
      simp [Deadline.dropAt]
    · rw [Function.update_of_ne hc, h.absent c]
      by_cases hcl : c = (cp.elements (cp.size - 1)).cpu
      · subst hcl
        simp [Deadline.dropAt, hc, h.idx _ hlast]
      · simp [Deadline.dropAt, hc, hcl]

end DropAt

theorem Holds.withFree {cp : Cpudl} {m : Nat → Option Nat} (h : Holds cp m)
    (free_cpus : Finset Nat) : Holds { cp with free_cpus := free_cpus } m :=
  ⟨h.small, h.idx, h.back, h.dl, h.absent⟩

/-- The last element, in the place of one that goes, moves up as far as it has to. -/
theorem siftUp_dropAt {NR_CPUS : Nat} {cp : Cpudl} {m : Nat → Option Nat} {cpu old_idx : Nat}
    (h : Represents NR_CPUS cp m) (hidx : cp.cpu_to_idx cpu = some old_idx) :
    ∃ cp' idx', siftUp (dropAt cp cpu old_idx) old_idx = (cp', idx') ∧
      Holds cp' (Function.update m cpu none) ∧ cp'.free_cpus = cp.free_cpus ∧
      Apart (keys cp') cp'.size idx' ∧ Over (keys cp') idx' := by
  have hdrop := h.toHolds.dropAt hidx
  obtain ⟨hlt, -⟩ := h.back cpu old_idx hidx
  have hapart : Apart (keys (dropAt cp cpu old_idx)) (cp.size - 1) old_idx := by
    rw [keys_dropAt]
    exact (h.heap.mono (Nat.sub_le _ _)).apart_update _ _
  by_cases hlast : old_idx = cp.size - 1
  · -- it is the one that goes, and `old_idx` is now one past the heap
    have hover : Over (keys (dropAt cp cpu old_idx)) old_idx := by
      rw [keys_dropAt, ← hlast, Function.update_eq_self]
      exact fun hpos => h.heap old_idx hpos hlt
    exact ⟨_, _, siftUp_of_over hdrop hover, hdrop, rfl, hapart, hover⟩
  · have hlt' : old_idx < cp.size - 1 := by omega
    obtain ⟨hholds, hfree, ha, ho, -⟩ := siftUp_spec hdrop hapart hlt'
    exact ⟨_, _, rfl, hholds, hfree, ha, ho⟩

theorem set_invalid {NR_CPUS : Nat} {cp : Cpudl} {m : Nat → Option Nat} {cpu : Nat} (dl : Nat)
    (h : Represents NR_CPUS cp m) (hcpu : cpu < NR_CPUS) :
    Represents NR_CPUS (cpudl_set cp cpu dl false) (Function.update m cpu none) := by
  cases hidx : cp.cpu_to_idx cpu with
  | none =>
      rw [← (h.absent cpu).mpr hidx, Function.update_eq_self]
      simpa only [cpudl_set, hidx] using h
  | some old_idx =>
      obtain ⟨cp', idx', hsift, hholds, hfree, ha, ho⟩ := siftUp_dropAt h hidx
      have hset : cpudl_set cp cpu dl false =
          cpudl_heapify { cp' with free_cpus := insert cpu cp'.free_cpus } idx' := by
        simp only [cpudl_set, hidx, hsift]
      obtain ⟨hholds', hheap, hfree'⟩ :=
        heapify_settles (hholds.withFree (insert cpu cp'.free_cpus)) ha ho
      rw [hset]
      refine ⟨hholds', hheap, fun c => ?_⟩
      rw [hfree', Finset.mem_insert, hfree, h.free c]
      by_cases hc : c = cpu
      · subst hc
        simp [hcpu]
      · simp [hc]

theorem set_valid {NR_CPUS : Nat} {cp : Cpudl} {m : Nat → Option Nat} (cpu : Nat) {dl : Nat}
    (h : Represents NR_CPUS cp m) (hdl : dl < 2 ^ 63) :
    Represents NR_CPUS (cpudl_set cp cpu dl true) (Function.update m cpu (some dl)) := by
  cases hidx : cp.cpu_to_idx cpu with
  | none =>
      have henter := h.toHolds.enter hidx
      have hheap : IsHeap (keys (enter cp cpu)) (enter cp cpu).size := by
        rw [keys_enter]
        exact h.heap.snoc_bot (fun _ => Nat.zero_le _)
      obtain ⟨hholds, hheap', hfree⟩ :=
        change_key_settles henter hheap (Nat.lt_succ_self cp.size) hdl
      have hcpu : ((enter cp cpu).elements cp.size).cpu = cpu := by simp [enter]
      rw [hcpu, Function.update_idem] at hholds
      have hset : cpudl_set cp cpu dl true =
          { cpudl_change_key (enter cp cpu) cp.size dl with
            free_cpus := (cpudl_change_key (enter cp cpu) cp.size dl).free_cpus.erase cpu } := by
        simp only [cpudl_set, hidx, enter, Nat.add_sub_cancel]
      rw [hset]
      refine ⟨hholds.withFree _, hheap', fun c => ?_⟩
      rw [Finset.mem_erase, hfree]
      show c ≠ cpu ∧ c ∈ cp.free_cpus ↔ _
      rw [h.free c]
      by_cases hc : c = cpu
      · subst hc
        simp
      · simp [hc]
  | some old_idx =>
      obtain ⟨hlt, hcpu⟩ := h.back cpu old_idx hidx
      obtain ⟨hholds, hheap, hfree⟩ := change_key_settles h.toHolds h.heap hlt hdl
      rw [hcpu] at hholds
      have hset : cpudl_set cp cpu dl true = cpudl_change_key cp old_idx dl := by
        simp only [cpudl_set, hidx]
      rw [hset]
      refine ⟨hholds, hheap, fun c => ?_⟩
      rw [hfree, h.free c]
      by_cases hc : c = cpu
      · subst hc
        have hsome := h.dl old_idx hlt
        rw [hcpu] at hsome
        simp [hsome]
      · simp [hc]

/-! ## Every sequence of calls -/

/-- A call of `cpudl_set` -/
structure SetCall where
  cpu : Nat
  dl : Nat
  is_valid : Bool

/-- The CPU is one of the system's, and a deadline that is set is below `2 ^ 63`. -/
def SetCall.Fits (NR_CPUS : Nat) (c : SetCall) : Prop :=
  c.cpu < NR_CPUS ∧ (c.is_valid = true → c.dl < 2 ^ 63)

instance (NR_CPUS : Nat) (c : SetCall) : Decidable (c.Fits NR_CPUS) :=
  inferInstanceAs (Decidable (_ ∧ _))

def cpudlAfter (NR_CPUS : Nat) (calls : List SetCall) : Cpudl :=
  calls.foldl (fun cp c => cpudl_set cp c.cpu c.dl c.is_valid) (cpudl_init NR_CPUS)

def lastSet (calls : List SetCall) : Nat → Option Nat :=
  calls.foldl (fun m c => setLast m c.cpu c.dl c.is_valid) fun _ => none

theorem cpudl_represents (NR_CPUS : Nat) (calls : List SetCall)
    (h : ∀ c ∈ calls, c.Fits NR_CPUS) :
    Represents NR_CPUS (cpudlAfter NR_CPUS calls) (lastSet calls) := by
  induction calls using List.reverseRecOn with
  | nil =>
      refine ⟨⟨?_, ?_, ?_, ?_, ?_⟩, ?_, ?_⟩ <;>
        simp [cpudlAfter, lastSet, cpudl_init, keys, IsHeap]
  | append_singleton calls c ih =>
      have hc := h c (by simp)
      have hrep := ih fun c' hc' => h c' (List.mem_append_left _ hc')
      simp only [cpudlAfter, lastSet, List.foldl_concat] at hrep ⊢
      cases hv : c.is_valid with
      | true => exact set_valid c.cpu hrep (hc.2 hv)
      | false => exact set_invalid c.dl hrep hc.1

/-! ## The CPU to push to -/

/-- No deadline is later than that of `cpu`, which is `dl`. -/
def IsLatest (m : Nat → Option Nat) (cpu dl : Nat) : Prop :=
  m cpu = some dl ∧ ∀ cpu' dl', m cpu' = some dl' → dl' ≤ dl

/-- `cpu` has no deadline task, and the task may go there. -/
def IsFree (NR_CPUS : Nat) (m : Nat → Option Nat) (cpu_active_mask cpus_allowed : Finset Nat)
    (cpu : Nat) : Prop :=
  cpu < NR_CPUS ∧ m cpu = none ∧ cpu ∈ cpus_allowed ∧ cpu ∈ cpu_active_mask

theorem Represents.isLatest_maximum {NR_CPUS : Nat} {cp : Cpudl} {m : Nat → Option Nat}
    (h : Represents NR_CPUS cp m) {cpu : Nat} (hcpu : m cpu ≠ none) :
    IsLatest m (cpudl_maximum cp) (cp.elements 0).dl := by
  have hplace : ∀ c, m c ≠ none →
      ∃ i < cp.size, (cp.elements i).cpu = c ∧ m c = some (cp.elements i).dl := by
    intro c hc
    rw [Ne, h.absent c] at hc
    obtain ⟨i, hi⟩ := Option.ne_none_iff_exists'.mp hc
    obtain ⟨hlt, heq⟩ := h.back c i hi
    exact ⟨i, hlt, heq, heq ▸ h.dl i hlt⟩
  obtain ⟨i, hi, -, -⟩ := hplace cpu hcpu
  refine ⟨h.dl 0 (by omega), fun cpu' dl' hm => ?_⟩
  obtain ⟨j, hj, -, hdl⟩ := hplace cpu' (by simp [hm])
  obtain rfl : dl' = keys cp j := Option.some.inj (hm.symm.trans hdl)
  exact h.heap.le_root hj

theorem Represents.mem_free {NR_CPUS : Nat} {cp : Cpudl} {m : Nat → Option Nat}
    (h : Represents NR_CPUS cp m) (cpu_active_mask cpus_allowed : Finset Nat) (cpu : Nat) :
    cpu ∈ (cp.free_cpus ∩ cpus_allowed) ∩ cpu_active_mask ↔
      IsFree NR_CPUS m cpu_active_mask cpus_allowed cpu := by
  rw [Finset.mem_inter, Finset.mem_inter, h.free cpu, IsFree]
  tauto

/-- A free CPU if there is one and it is asked for, or else the CPU with the latest
deadline if the task may go there and is earlier.  Without a deadline on any CPU,
`elements[0]` is what was there last, and nothing is said. -/
theorem cpudl_find_best (NR_CPUS : Nat) (calls : List SetCall) (h : ∀ c ∈ calls, c.Fits NR_CPUS)
    (cpu_active_mask cpus_allowed : Finset Nat) (deadline : Nat) (hdl : deadline < 2 ^ 63)
    (later_mask : Option (Finset Nat)) (cpu : Nat) (hcpu : lastSet calls cpu ≠ none) :
    let free := IsFree NR_CPUS (lastSet calls) cpu_active_mask cpus_allowed
    match (cpudl_find (cpudlAfter NR_CPUS calls) cpu_active_mask cpus_allowed deadline
      later_mask).1 with
    | some best => later_mask ≠ none ∧ free best ∨
        (later_mask ≠ none → ∀ c, ¬ free c) ∧ best ∈ cpus_allowed ∧
          ∃ dl, IsLatest (lastSet calls) best dl ∧ deadline < dl
    | none => (later_mask ≠ none → ∀ c, ¬ free c) ∧
        ∃ c dl, IsLatest (lastSet calls) c dl ∧ (c ∈ cpus_allowed → dl ≤ deadline) := by
  intro free
  have hrep := cpudl_represents NR_CPUS calls h
  generalize cpudlAfter NR_CPUS calls = cp at hrep
  have hlatest := hrep.isLatest_maximum hcpu
  have hbefore : before deadline (cp.elements 0).dl ↔ deadline < (cp.elements 0).dl :=
    before_iff_lt hdl (hrep.small 0)
  simp only [cpudl_find]
  by_cases hfree : later_mask.isSome ∧
      ((cp.free_cpus ∩ cpus_allowed) ∩ cpu_active_mask).Nonempty
  · rw [dif_pos hfree]
    refine .inl ⟨Option.isSome_iff_ne_none.mp hfree.1, ?_⟩
    exact (hrep.mem_free _ _ _).mp (Finset.min'_mem _ _)
  · rw [dif_neg hfree]
    have hnone : later_mask ≠ none → ∀ c, ¬ free c := by
      intro hmask c hc
      exact hfree ⟨Option.isSome_iff_ne_none.mpr hmask, c, (hrep.mem_free _ _ c).mpr hc⟩
    by_cases hbest : cpudl_maximum cp ∈ cpus_allowed ∧ before deadline (cp.elements 0).dl
    · rw [if_pos hbest]
      exact .inr ⟨hnone, hbest.1, _, hlatest, hbefore.mp hbest.2⟩
    · rw [if_neg hbest]
      refine ⟨hnone, _, _, hlatest, fun hallowed => ?_⟩
      exact not_lt.mp fun hlt => hbest ⟨hallowed, hbefore.mpr hlt⟩

/-- Four CPUs: three get a deadline, and the one with the latest loses it again. -/
def someCalls : List SetCall := [⟨0, 50, true⟩, ⟨2, 90, true⟩, ⟨1, 70, true⟩, ⟨2, 0, false⟩]

theorem someCalls_fit : ∀ c ∈ someCalls, c.Fits 4 := by
  simp [someCalls, SetCall.Fits]

theorem lastSet_someCalls (c : Nat) :
    lastSet someCalls c = if c = 0 then some 50 else if c = 1 then some 70 else none := by
  simp only [lastSet, someCalls, List.foldl_cons, List.foldl_nil, setLast, Function.update_apply]
  by_cases h₀ : c = 0
  · simp [h₀]
  · by_cases h₁ : c = 1
    · simp [h₁]
    · simp [h₀, h₁]

/-- Of the two that are allowed neither is free, and the one with 70 is found. -/
theorem someCalls_find :
    (cpudl_find (cpudlAfter 4 someCalls) {0, 1, 2, 3} {0, 1} 60 (some ∅)).1 = some 1 := by
  have hlast := lastSet_someCalls
  have hbest := cpudl_find_best 4 someCalls someCalls_fit {0, 1, 2, 3} {0, 1} 60 (by omega)
    (some ∅) 1 (by rw [hlast]; decide)
  simp only at hbest
  have hallowed : ∀ c dl, lastSet someCalls c = some dl → c = 0 ∧ dl = 50 ∨ c = 1 ∧ dl = 70 := by
    intro c dl hc
    rw [hlast] at hc
    split at hc
    · exact .inl ⟨‹_›, (Option.some.inj hc).symm⟩
    · split at hc
      · exact .inr ⟨‹_›, (Option.some.inj hc).symm⟩
      · cases hc
  have hlatest : ∀ c dl, IsLatest (lastSet someCalls) c dl → c = 1 ∧ dl = 70 := by
    rintro c dl ⟨hc, hle⟩
    have hmore := hle 1 70 (by rw [hlast]; rfl)
    have hcases := hallowed c dl hc
    omega
  split at hbest
  · rename_i best hfound
    rcases hbest with ⟨-, -, hnone, hbest, -⟩ | ⟨-, -, dl, hdl, -⟩
    · rw [hlast] at hnone
      rcases Finset.mem_insert.mp hbest with rfl | hbest
      · cases hnone
      · obtain rfl := Finset.mem_singleton.mp hbest
        cases hnone
    · rw [hfound, (hlatest best dl hdl).1]
  · obtain ⟨-, c, dl, hdl, hlate⟩ := hbest
    obtain ⟨rfl, rfl⟩ := hlatest c dl hdl
    exact absurd (hlate (by decide)) (by decide)

end KernelLab.Deadline
