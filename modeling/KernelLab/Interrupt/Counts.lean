/-
# `KernelLab.Interrupt.Counts` — the bottom half never counts more than the interrupts

Three labs count interrupts in `counter_th` and their bottom halves in `counter_bh`: by
a tasklet, by a work item and by a kernel thread.  `bh_never_outruns_th`: however the
steps of handlers, bottom halves and `my_exit` interleave, at most as many increments
of `counter_bh` have been made as of `counter_th`.  The counters themselves are
`atomic_t`, so they agree with the numbers of increments modulo `2 ^ 32`.

For the tasklet and the work item this is `BottomHalf.charged_of_exec`.  In the thread
lab it is the flag that carries the charge: raised where the thread will look at it, it
stands for one increment to come, and a handler that has counted and not yet stored is
what pays for raising it.  The value 1 that `my_init` leaves in the flag stands for
nothing, since the thread takes it down before it first looks.
-/
import KernelLab.Interrupt.AddThread
import KernelLab.Interrupt.BottomHalf

namespace KernelLab.Interrupt

open KernelLab.CInt KernelLab.Run

namespace AddThread

/-- The increments of `counter_bh` the thread makes without a further interrupt. -/
def owed (s : State) : Nat :=
  match s.thread with
  | .wait | .test => if s.cond ≠ 0 then 1 else 0
  | .count => 1
  | .reset | .again | .done => 0

structure Counts (es : List Event) (s : State) : Prop where
  th : s.counter_th = toInt (es.count .irqCount)
  bh : s.counter_bh = toInt (es.count .threadCount)
  charged : es.count .threadCount + owed s + s.counted ≤ es.count .irqCount

theorem owed_le (s : State) : owed s ≤ 1 := by
  unfold owed
  split
  · split <;> decide
  · split <;> decide
  all_goals decide

theorem Counts.init : Counts [] my_init := ⟨by decide, by decide, by decide⟩

/-- A step that touches neither counter. -/
theorem Counts.keep {es : List Event} {s s' : State} {e : Event} (h : Counts es s)
    (hth : e ≠ .irqCount) (hbh : e ≠ .threadCount) (hcth : s'.counter_th = s.counter_th)
    (hcbh : s'.counter_bh = s.counter_bh)
    (hle : owed s' + s'.counted ≤ owed s + s.counted) : Counts (es ++ [e]) s' := by
  have hc := h.charged
  refine ⟨?_, ?_, ?_⟩
  · rw [hcth, h.th, count_concat_ne hth]
  · rw [hcbh, h.bh, count_concat_ne hbh]
  · rw [count_concat_ne hth, count_concat_ne hbh]
    omega

theorem Counts.step {es : List Event} {s s' : State} {e : Event} (h : Counts es s)
    (he : step s e = some s') : Counts (es ++ [e]) s' := by
  cases e with
  | irqCount =>
      cases he
      have hc := h.charged
      refine ⟨?_, ?_, ?_⟩
      · rw [count_concat_self, Nat.cast_succ, ← atomicInc_toInt, ← h.th]
      · rw [count_concat_ne (by decide), h.bh]
      · rw [count_concat_self, count_concat_ne (by decide)]
        show _ + owed s + (s.counted + 1) ≤ _
        omega
  | irqStore =>
      obtain ⟨hc, rfl⟩ := accepted he
      refine h.keep (by decide) (by decide) rfl rfl ?_
      -- the flag goes up at the cost of a handler that has counted
      have hle := owed_le { s with cond := 1, counted := s.counted - 1, stored := s.stored + 1 }
      simp only at hle ⊢
      omega
  | irqWake =>
      obtain ⟨-, rfl⟩ := accepted he
      exact h.keep (by decide) (by decide) rfl rfl (Nat.le_refl _)
  | threadReset =>
      obtain ⟨ht, rfl⟩ := accepted he
      refine h.keep (by decide) (by decide) rfl rfl ?_
      simp [owed]
  | threadPass =>
      obtain ⟨⟨ht, -⟩, rfl⟩ := accepted he
      refine h.keep (by decide) (by decide) rfl rfl ?_
      simp [owed, ht]
  | threadTest =>
      obtain ⟨ht, rfl⟩ := accepted he
      refine h.keep (by decide) (by decide) rfl rfl ?_
      by_cases hc : s.cond = 0 <;> simp [owed, ht, hc]
  | threadCount =>
      obtain ⟨ht, rfl⟩ := accepted he
      have hc := h.charged
      have ho : owed s = 1 := by simp [owed, ht]
      refine ⟨?_, ?_, ?_⟩
      · rw [count_concat_ne (by decide), h.th]
      · rw [count_concat_self, Nat.cast_succ, ← atomicInc_toInt, ← h.bh]
      · rw [count_concat_self, count_concat_ne (by decide)]
        show _ + 1 + 0 + s.counted ≤ _
        omega
  | threadLoop =>
      obtain ⟨ht, rfl⟩ := accepted he
      refine h.keep (by decide) (by decide) rfl rfl ?_
      cases hs : s.stop <;> simp [owed]
  | kthreadStop =>
      cases he
      exact h.keep (by decide) (by decide) rfl rfl (Nat.le_refl _)

theorem charged_of_exec {es : List Event} {s : State} (h : exec step my_init es = some s) :
    Counts es s :=
  invariant step (I := Counts) Counts.init (fun _ _ _ _ hI he => hI.step he) es s h

end AddThread

theorem bh_never_outruns_th :
    (∀ (lab : BottomHalf.Lab) es s,
      exec (BottomHalf.step lab) BottomHalf.my_init es = some s →
        s.counter_th = toInt (es.count .irqCount) ∧ s.counter_bh = toInt (es.count .bhCount) ∧
          es.count .bhCount ≤ es.count .irqCount) ∧
    (∀ es s, exec AddThread.step AddThread.my_init es = some s →
        s.counter_th = toInt (es.count .irqCount) ∧
          s.counter_bh = toInt (es.count .threadCount) ∧
          es.count .threadCount ≤ es.count .irqCount) := by
  constructor
  · intro lab es s h
    have hc := BottomHalf.charged_of_exec h
    exact ⟨hc.th, hc.bh, by have := hc.charged; omega⟩
  · intro es s h
    have hc := AddThread.charged_of_exec h
    exact ⟨hc.th, hc.bh, by have := hc.charged; omega⟩

/-- Two interrupts, one tasklet: the second finds it pending. -/
def twoForOne : List BottomHalf.Event :=
  [.irqCount, .irqSchedule, .irqReturn, .irqCount, .irqSchedule, .bhStart, .bhCount]

theorem bh_never_outruns_th_twoForOne :
    ∃ s, exec (BottomHalf.step .tasklet) BottomHalf.my_init twoForOne = some s ∧
      s.counter_th = 2 ∧ s.counter_bh = 1 ∧
      twoForOne.count .bhCount ≤ twoForOne.count .irqCount := by
  have hrun : exec (BottomHalf.step .tasklet) BottomHalf.my_init twoForOne = some
      { BottomHalf.my_init with
        counter_th := 2, counter_bh := 1, scheduled := 1, finishing := 1 } := by decide
  exact ⟨_, hrun, rfl, rfl, (bh_never_outruns_th.1 .tasklet twoForOne _ hrun).2.2⟩

end KernelLab.Interrupt
