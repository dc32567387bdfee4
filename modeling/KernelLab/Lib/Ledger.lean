/-
# `KernelLab.Lib.Ledger` — what is taken and what is given back

A ledger knows, of everything that can be acquired, whether it is held now and how often
it has been given back.  Giving back what is not held is refused: a second `free`, or the
`free` of something that was never there.

    take r          r is held from now on
    release r       r was held, and is not any more
    deref p         p points at something that is held

`ReleasedOnce` is what an unload owes to the load before it: everything that was held has
been given back, exactly once, and nothing else.  A list of releases does that if it
names everything held, each once (`releasedOnce_of_exec`).

A component with a load and an unload is a `Loadable`; `LoadsClean` is the contract
between the two.
-/
import KernelLab.Lib.Run

namespace KernelLab

open KernelLab.Run

structure Ledger (ρ : Type*) where
  live : ρ → Bool
  released : ρ → Nat

namespace Ledger

variable {ρ ι : Type*}

def empty : Ledger ρ := ⟨fun _ => false, fun _ => 0⟩

/-- The object a pointer leads to; refused if the pointer is null or the object is gone. -/
def deref (L : Ledger ρ) (kind : ι → ρ) (p : Option ι) : Option ι :=
  p.filter fun a => L.live (kind a)

theorem deref_none (L : Ledger ρ) (kind : ι → ρ) : L.deref kind none = none := rfl

theorem deref_some {L : Ledger ρ} {kind : ι → ρ} {a : ι} (h : L.live (kind a) = true) :
    L.deref kind (some a) = some a := by
  rw [deref, Option.filter_some, if_pos h]

variable [DecidableEq ρ]

def take (L : Ledger ρ) (r : ρ) : Ledger ρ :=
  { L with live := Function.update L.live r true }

def release (L : Ledger ρ) (r : ρ) : Option (Ledger ρ) :=
  if L.live r then
    some ⟨Function.update L.live r false, Function.update L.released r (L.released r + 1)⟩
  else none

def takeAll (L : Ledger ρ) (rs : List ρ) : Ledger ρ := rs.foldl take L

/-- Everything held in `L` has been given back exactly once, and nothing else. -/
def ReleasedOnce (L L' : Ledger ρ) : Prop :=
  ∀ r, L'.live r = false ∧ L'.released r = L.released r + if L.live r then 1 else 0

theorem live_take (L : Ledger ρ) (r r' : ρ) :
    (L.take r).live r' = true ↔ r' = r ∨ L.live r' = true := by
  by_cases h : r' = r
  · subst h
    simp [take]
  · simp [take, h]

theorem take_comm (L : Ledger ρ) (r r' : ρ) : (L.take r).take r' = (L.take r').take r := by
  by_cases h : r = r'
  · rw [h]
  · simp only [take, Function.update_comm h]

@[simp] theorem takeAll_nil (L : Ledger ρ) : L.takeAll [] = L := rfl

@[simp] theorem takeAll_cons (L : Ledger ρ) (r : ρ) (rs : List ρ) :
    L.takeAll (r :: rs) = (L.take r).takeAll rs := rfl

theorem takeAll_append (L : Ledger ρ) (rs rs' : List ρ) :
    L.takeAll (rs ++ rs') = (L.takeAll rs).takeAll rs' :=
  List.foldl_append

theorem live_takeAll (L : Ledger ρ) (rs : List ρ) (r : ρ) :
    (L.takeAll rs).live r = true ↔ r ∈ rs ∨ L.live r = true := by
  induction rs generalizing L with
  | nil => simp
  | cons r' rs ih =>
      rw [takeAll_cons, ih, live_take, List.mem_cons]
      tauto

theorem release_of_live {L : Ledger ρ} {r : ρ} (h : L.live r = true) :
    L.release r = some
      ⟨Function.update L.live r false, Function.update L.released r (L.released r + 1)⟩ := by
  rw [release, if_pos h]

theorem live_of_release {L L' : Ledger ρ} {r : ρ} (h : L.release r = some L') :
    L.live r = true := by
  by_contra hr
  rw [release, if_neg hr] at h
  cases h

theorem live_release {L L' : Ledger ρ} {r r' : ρ} (h : L.release r = some L') (hne : r' ≠ r) :
    L'.live r' = L.live r' := by
  rw [release_of_live (live_of_release h)] at h
  cases h
  exact Function.update_of_ne hne _ _

/-! ## Releasing a list -/

theorem exec_release {rs : List ρ} (hnd : rs.Nodup) :
    ∀ L : Ledger ρ, (∀ r ∈ rs, L.live r = true) → ∃ L', exec release L rs = some L' ∧
      ∀ r, L'.live r = (L.live r && decide (r ∉ rs)) ∧
        L'.released r = L.released r + if r ∈ rs then 1 else 0 := by
  induction rs with
  | nil =>
      intro L _
      exact ⟨L, rfl, by simp⟩
  | cons a rs ih =>
      intro L hlive
      obtain ⟨ha, hnd'⟩ := List.nodup_cons.mp hnd
      have hrest : ∀ r ∈ rs, Function.update L.live a false r = true := by
        intro r hr
        have hra : r ≠ a := by
          rintro rfl
          exact ha hr
        rw [Function.update_of_ne hra]
        exact hlive r (List.mem_cons_of_mem _ hr)
      obtain ⟨L', hexec, hL'⟩ := ih hnd'
        ⟨Function.update L.live a false, Function.update L.released a (L.released a + 1)⟩ hrest
      refine ⟨L', ?_, ?_⟩
      · rw [exec, release_of_live (hlive a List.mem_cons_self), Option.bind_some, hexec]
      · intro r
        obtain ⟨hl, hr⟩ := hL' r
        by_cases hra : r = a
        · subst hra
          simp [hl, hr, ha]
        · simp [hl, hr, hra]

theorem releasedOnce_of_exec {L : Ledger ρ} {rs : List ρ} (hnd : rs.Nodup)
    (hmem : ∀ r, r ∈ rs ↔ L.live r = true) :
    ∃ L', exec release L rs = some L' ∧ ReleasedOnce L L' := by
  obtain ⟨L', hexec, hL'⟩ := exec_release hnd L fun r hr => (hmem r).mp hr
  refine ⟨L', hexec, ?_⟩
  intro r
  obtain ⟨hl, hr⟩ := hL' r
  rw [hl, hr]
  by_cases h : r ∈ rs
  · simp [h, (hmem r).mp h]
  · have hoff : L.live r = false := by simpa [h] using hmem r
    simp [h, hoff]

end Ledger

/-! ## Load and unload -/

/-- A component with a load function and an unload function.  `none` stands for the
dereference of a pointer that is null or freed, and for a release of what is not held. -/
structure Loadable (σ ρ : Type*) where
  init : Option (Int × σ)
  exit : σ → Option σ
  ledger : σ → Ledger ρ
  /-- every device is fully set up -/
  SetUp : σ → Prop

def LoadsClean {σ ρ : Type*} [DecidableEq ρ] (D : Loadable σ ρ) : Prop :=
  ∃ ret s, D.init = some (ret, s) ∧
    (ret ≠ 0 → ∀ r, (D.ledger s).live r = false) ∧
    (ret = 0 → D.SetUp s ∧ ∃ s', D.exit s = some s' ∧ (D.ledger s).ReleasedOnce (D.ledger s'))

end KernelLab
