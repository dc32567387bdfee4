/-
# `KernelLab.Lib.Loop` — loops that may not end

A loop is its body: from a state, either the next state or a result to leave
with.  `run` gives it fuel; that a loop *ends* with a result is that some amount
of fuel produces it, and that it does not end is that none does, so nothing here
assumes termination and nothing hides its absence.

`Ends` is used through four facts: leaving at once, one more iteration in front,
reading the first iteration back, and uniqueness of the result.  `Ends.invariant` is
the rule for partial correctness, `ends_of_measure` the one for total correctness, an
invariant with a measure, and `run_of_measure` also counts the iterations.

`Path` keeps the states in which the iterations start, for what is to be said of
each of them; paths compose, and a loop ends if a path leads to where it ends.
-/
import Mathlib

namespace KernelLab.Loop

/-- What one iteration does: go on, or leave the loop. -/
inductive Step (σ ρ : Type*) where
  | next (s : σ)
  | exit (r : ρ)

variable {σ ρ : Type*} {body : σ → Step σ ρ}

/-- At most `fuel` iterations of the loop. -/
def run (body : σ → Step σ ρ) : Nat → σ → Option ρ
  | 0, _ => none
  | fuel + 1, s =>
      match body s with
      | .next s' => run body fuel s'
      | .exit r => some r

/-- The loop, entered in `s`, is left with `r`. -/
def Ends (body : σ → Step σ ρ) (s : σ) (r : ρ) : Prop :=
  ∃ fuel, run body fuel s = some r

/-- More fuel changes nothing for a loop that has been left. -/
theorem run_mono {fuel fuel' : Nat} {s : σ} {r : ρ} (h : run body fuel s = some r)
    (hle : fuel ≤ fuel') : run body fuel' s = some r := by
  induction fuel generalizing s fuel' with
  | zero => nomatch h
  | succ fuel ih =>
      obtain ⟨fuel', rfl⟩ : ∃ f, fuel' = f + 1 := ⟨fuel' - 1, by omega⟩
      rw [run] at h ⊢
      cases hb : body s with
      | next s' =>
          rw [hb] at h
          exact ih h (by omega)
      | exit r' =>
          rw [hb] at h
          exact h

theorem Ends.of_exit {s : σ} {r : ρ} (h : body s = .exit r) : Ends body s r :=
  ⟨1, by simp [run, h]⟩

theorem Ends.of_next {s s' : σ} {r : ρ} (h : body s = .next s') (he : Ends body s' r) :
    Ends body s r := by
  obtain ⟨fuel, hf⟩ := he
  exact ⟨fuel + 1, by simp [run, h, hf]⟩

/-- The first iteration of a loop that ends. -/
theorem Ends.cases {s : σ} {r : ρ} (h : Ends body s r) :
    body s = .exit r ∨ ∃ s', body s = .next s' ∧ Ends body s' r := by
  obtain ⟨fuel, hf⟩ := h
  cases fuel with
  | zero => nomatch hf
  | succ fuel =>
      cases hb : body s with
      | next s' =>
          simp only [run, hb] at hf
          exact .inr ⟨s', rfl, fuel, hf⟩
      | exit r' =>
          simp only [run, hb, Option.some.injEq] at hf
          exact .inl (by rw [hf])

theorem Ends.unique {s : σ} {r r' : ρ} (h : Ends body s r) (h' : Ends body s r') : r = r' := by
  obtain ⟨fuel, hf⟩ := h
  induction fuel generalizing s with
  | zero => nomatch hf
  | succ fuel ih =>
      cases hb : body s with
      | next s' =>
          simp only [run, hb] at hf
          rcases h'.cases with hx | ⟨s'', hx, he⟩
          · rw [hb] at hx
            nomatch hx
          · rw [hb] at hx
            cases hx
            exact ih he hf
      | exit r₀ =>
          simp only [run, hb, Option.some.injEq] at hf
          rcases h'.cases with hx | ⟨s'', hx, _⟩
          · rw [hb] at hx
            cases hx
            exact hf.symm
          · rw [hb] at hx
            nomatch hx

/-- Partial correctness: what every iteration keeps holds where the loop is left. -/
theorem Ends.invariant (I : σ → Prop) (hnext : ∀ s s', I s → body s = .next s' → I s')
    {s : σ} {r : ρ} (h : Ends body s r) (hs : I s) : ∃ s', I s' ∧ body s' = .exit r := by
  obtain ⟨fuel, hf⟩ := h
  induction fuel generalizing s with
  | zero => cases hf
  | succ fuel ih =>
      cases hb : body s with
      | next s' =>
          simp only [run, hb] at hf
          exact ih (hnext s s' hs hb) hf
      | exit r' =>
          simp only [run, hb, Option.some.injEq] at hf
          exact ⟨s, hs, by rw [hb, hf]⟩

/-- Total correctness: under an invariant that every iteration keeps while a
measure falls, the loop ends, after no more iterations than the measure says, and with
a result the exits allow. -/
theorem run_of_measure (I : σ → Prop) (μ : σ → Nat) (Q : ρ → Prop)
    (hnext : ∀ s s', I s → body s = .next s' → I s' ∧ μ s' < μ s)
    (hexit : ∀ s r, I s → body s = .exit r → Q r) :
    ∀ s, I s → ∃ r, run body (μ s + 1) s = some r ∧ Q r := by
  intro s hs
  induction hm : μ s using Nat.strongRecOn generalizing s with
  | _ m ih =>
      cases hb : body s with
      | next s' =>
          obtain ⟨hI, hlt⟩ := hnext s s' hs hb
          obtain ⟨r, hrun, hq⟩ := ih (μ s') (hm ▸ hlt) s' hI rfl
          refine ⟨r, ?_, hq⟩
          simp only [run, hb]
          exact run_mono hrun (hm ▸ hlt)
      | exit r => exact ⟨r, by simp only [run, hb], hexit s r hs hb⟩

theorem ends_of_measure (I : σ → Prop) (μ : σ → Nat) (Q : ρ → Prop)
    (hnext : ∀ s s', I s → body s = .next s' → I s' ∧ μ s' < μ s)
    (hexit : ∀ s r, I s → body s = .exit r → Q r) :
    ∀ s, I s → ∃ r, Ends body s r ∧ Q r := by
  intro s hs
  obtain ⟨r, hrun, hq⟩ := run_of_measure I μ Q hnext hexit s hs
  exact ⟨r, ⟨μ s + 1, hrun⟩, hq⟩

/-! ## The iterations one by one -/

/-- From `s` to `s'` by iterations that start in the states listed. -/
inductive Path (body : σ → Step σ ρ) : σ → List σ → σ → Prop
  | refl (s : σ) : Path body s [] s
  | next {s s' s'' : σ} {ss : List σ} :
      body s = .next s' → Path body s' ss s'' → Path body s (s :: ss) s''

theorem Path.single {s s' : σ} (h : body s = .next s') : Path body s [s] s' :=
  .next h (.refl s')

theorem Path.trans {s s' s'' : σ} {ss ss' : List σ} (h : Path body s ss s')
    (h' : Path body s' ss' s'') : Path body s (ss ++ ss') s'' := by
  induction h with
  | refl s => exact h'
  | next hb _ ih => exact .next hb (ih h')

theorem Path.ends {s s' : σ} {ss : List σ} {r : ρ} (h : Path body s ss s')
    (he : Ends body s' r) : Ends body s r := by
  induction h with
  | refl s => exact he
  | next hb _ ih => exact .of_next hb (ih he)

end KernelLab.Loop
