/-
# `KernelLab.Lib.Unload` — callbacks that outlive the code they call

A module hands functions to the kernel, to be called later, and has an exit function
behind which its code is gone.  What matters is that nothing is left to call it:

    NoneSurvives    in every state behind the return of the exit function no
                    callback is pending or running, and none makes a step after it

Nobody but the exit function's own last step can end the module, so the question is
settled there: `noneSurvives_iff` reduces it to the state in which that step is taken.
The reduction needs, of the system, an inductive form `Gone` of "returned and idle",
one that says why nothing can start again.
-/
import KernelLab.Lib.Run

namespace KernelLab.Unload

open KernelLab.Run

/-- A module from load to unload, with the kernel around it. -/
structure Kmod (σ ε : Type*) where
  step : σ → ε → Option σ
  init : σ
  /-- the exit function has returned -/
  Returned : σ → Prop
  /-- no callback is pending or running -/
  Idle : σ → Prop
  /-- a step of a callback -/
  Callback : ε → Prop
  /-- the last step of the exit function -/
  exitReturn : ε

variable {σ ε : Type*} (M : Kmod σ ε)

def NoneSurvives (es : List ε) : Prop :=
  ∀ before after s, es = before ++ after → exec M.step M.init before = some s → M.Returned s →
    M.Idle s ∧ ∀ e ∈ after, ¬ M.Callback e

/-- `Gone` is a form of "returned and idle" that no step leaves. -/
structure Lawful (Gone : σ → Prop) : Prop where
  loaded : ¬ M.Returned M.init
  returned : ∀ {s s'}, M.step s M.exitReturn = some s' → M.Returned s' ∧ (M.Idle s' ↔ M.Idle s)
  only : ∀ {s e s'}, M.step s e = some s' → M.Returned s' → M.Returned s ∨ e = M.exitReturn
  enter : ∀ {es s}, exec M.step M.init es = some s → M.Returned s → M.Idle s → Gone s
  idle : ∀ {s}, Gone s → M.Idle s
  stable : ∀ {s e s'}, Gone s → M.step s e = some s' → Gone s' ∧ ¬ M.Callback e

namespace Lawful

variable {M} {Gone : σ → Prop} (hM : Lawful M Gone)

include hM

theorem no_callback {es : List ε} {s s' : σ} (hs : Gone s) (h : exec M.step s es = some s') :
    ∀ e ∈ es, ¬ M.Callback e := by
  induction es generalizing s with
  | nil => simp
  | cons a es ih =>
      obtain ⟨s₁, hstep, hrest⟩ := Option.bind_eq_some_iff.mp h
      obtain ⟨hgone, ha⟩ := hM.stable hs hstep
      intro e he
      rcases List.mem_cons.mp he with rfl | he
      · exact ha
      · exact ih hgone hrest e he

/-- Idle whenever the exit function takes its last step, hence gone ever after. -/
theorem gone_of_idle {es : List ε}
    (hidle : ∀ before after s, es = before ++ M.exitReturn :: after →
      exec M.step M.init before = some s → M.Idle s) :
    ∀ before after s, es = before ++ after → exec M.step M.init before = some s →
      M.Returned s → Gone s := by
  intro before
  induction before using List.reverseRecOn with
  | nil =>
      intro after s _ hs hret
      cases hs
      exact absurd hret hM.loaded
  | append_singleton before e ih =>
      intro after s heq hs hret
      rw [List.append_assoc, List.singleton_append] at heq
      obtain ⟨s₁, hs₁, hstep⟩ := exec_concat_some M.step hs
      rcases hM.only hstep hret with hret₁ | rfl
      · exact (hM.stable (ih (e :: after) s₁ heq hs₁ hret₁) hstep).1
      · exact hM.enter hs hret ((hM.returned hstep).2.mpr (hidle before after s₁ heq hs₁))

theorem noneSurvives_iff {es : List ε} {s : σ} (h : exec M.step M.init es = some s) :
    NoneSurvives M es ↔ ∀ before after s, es = before ++ M.exitReturn :: after →
      exec M.step M.init before = some s → M.Idle s := by
  constructor
  · rintro hnone before after s₁ rfl hs₁
    have hsplit : before ++ M.exitReturn :: after = (before ++ [M.exitReturn]) ++ after := by simp
    rw [hsplit, exec_append] at h
    obtain ⟨s₂, hs₂, -⟩ := Option.bind_eq_some_iff.mp h
    obtain ⟨s₁', hs₁', hstep⟩ := exec_concat_some M.step hs₂
    obtain rfl := Option.some.inj (hs₁.symm.trans hs₁')
    obtain ⟨hret, hiff⟩ := hM.returned hstep
    exact hiff.mp (hnone _ after s₂ hsplit hs₂ hret).1
  · rintro hidle before after s₁ rfl hs₁ hret
    have hgone := hM.gone_of_idle hidle before after s₁ rfl hs₁ hret
    rw [exec_append, hs₁, Option.bind_some] at h
    exact ⟨hM.idle hgone, hM.no_callback hgone h⟩

/-- The reduction, for an idleness that can be read off the schedule. -/
theorem noneSurvives_iff_meets (Drained : List ε → Prop)
    (hd : ∀ {es s s'}, exec M.step M.init es = some s → M.step s M.exitReturn = some s' →
      (M.Idle s ↔ Drained es))
    {es : List ε} {s : σ} (h : exec M.step M.init es = some s) :
    NoneSurvives M es ↔
      Meets M.step (fun before _ e => e = M.exitReturn → Drained before) M.init es := by
  -- an accepted schedule takes the step it contains
  have hstep : ∀ before after s₁, es = before ++ M.exitReturn :: after →
      exec M.step M.init before = some s₁ → ∃ s₂, M.step s₁ M.exitReturn = some s₂ := by
    rintro before after s₁ rfl hs₁
    rw [exec_append, hs₁, Option.bind_some] at h
    obtain ⟨s₂, hs₂, -⟩ := Option.bind_eq_some_iff.mp h
    exact ⟨s₂, hs₂⟩
  rw [hM.noneSurvives_iff h, meets_iff]
  constructor
  · rintro hidle before e after s₁ heq hs₁ rfl
    obtain ⟨s₂, hs₂⟩ := hstep before after s₁ heq hs₁
    exact (hd hs₁ hs₂).mp (hidle before after s₁ heq hs₁)
  · intro hall before after s₁ heq hs₁
    obtain ⟨s₂, hs₂⟩ := hstep before after s₁ heq hs₁
    exact (hd hs₁ hs₂).mpr (hall before _ after s₁ heq hs₁ rfl)

/-- Where the exit function cannot take its last step but idle. -/
theorem noneSurvives_of_idle
    (hidle : ∀ {es s s'}, exec M.step M.init es = some s → M.step s M.exitReturn = some s' →
      M.Idle s)
    {es : List ε} {s : σ} (h : exec M.step M.init es = some s) : NoneSurvives M es := by
  refine (hM.noneSurvives_iff_meets (fun _ => True) ?_ h).mpr ?_
  · intro es s s' hs hstep
    exact iff_of_true (hidle hs hstep) trivial
  · rw [meets_iff]
    intros
    trivial

end Lawful

end KernelLab.Unload
