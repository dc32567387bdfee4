/-
# `KernelLab.Unload` — which labs leave a callback behind

Four labs defer work to a function of their own: a tasklet, a work item, a timer, a
timer that re-arms itself.  `none_survives_unload` says of each, for every
interleaving of its steps with its exit function, when that function is safe to
return from:

    tasklet      tasklet_kill               always
    mmap         del_timer_sync             always
    work queue   nothing                    the work was drained by itself
    timer        del_timer, wrong object    thr_fun had run by itself

In the last two the condition is on what happened before the exit function returned,
and it is exact.
-/
import KernelLab.Interrupt.BottomHalf
import KernelLab.Timer.Timers

namespace KernelLab

open KernelLab.Run KernelLab.Unload

open Interrupt Timer

/-- The work item is pending when `my_exit` returns, and then run. -/
def workLeft : List BottomHalf.Event :=
  [.irqCount, .irqSchedule, .irqReturn, .exitCall, .exitSynchronize, .exitFreeIrq, .exitFreed,
   .exitReturn, .bhStart]

/-- Loaded and unloaded within the four seconds. -/
def timerLeft : List TimerLab.Event :=
  [.exitCall, .exitDelTimer, .exitReturn, .expire .tlist]

theorem callbacks_left_behind :
    ((∃ s, exec (BottomHalf.step .workqueue) BottomHalf.my_init workLeft = some s) ∧
      ¬ NoneSurvives (BottomHalf.kmod .workqueue) workLeft) ∧
    ((∃ s, exec TimerLab.step TimerLab.my_init timerLeft = some s) ∧
      ¬ NoneSurvives TimerLab.kmod timerLeft) := by
  refine ⟨⟨⟨_, rfl⟩, ?_⟩, ⟨⟨_, rfl⟩, ?_⟩⟩
  · intro h
    exact (h (workLeft.take 8) [.bhStart] _ rfl rfl rfl).2 .bhStart (by simp) (.inl rfl)
  · intro h
    exact (h (timerLeft.take 3) [.expire .tlist] _ rfl rfl rfl).2 (.expire .tlist) (by simp)
      (.inr ⟨_, rfl⟩)

theorem none_survives_unload (tasklet workqueue : List BottomHalf.Event)
    (timer : List TimerLab.Event) (mmap : List MmapLab.Event) :
    (∀ s, exec (BottomHalf.step .tasklet) BottomHalf.my_init tasklet = some s →
      NoneSurvives (BottomHalf.kmod .tasklet) tasklet) ∧
    (∀ s, exec MmapLab.step MmapLab.demo_map_init mmap = some s →
      NoneSurvives MmapLab.kmod mmap) ∧
    (∀ s, exec (BottomHalf.step .workqueue) BottomHalf.my_init workqueue = some s →
      (NoneSurvives (BottomHalf.kmod .workqueue) workqueue ↔
        Meets (BottomHalf.step .workqueue)
          (fun before _ e => e = .exitReturn → BottomHalf.Drained before)
          BottomHalf.my_init workqueue)) ∧
    (∀ s, exec TimerLab.step TimerLab.my_init timer = some s →
      (NoneSurvives TimerLab.kmod timer ↔
        Meets TimerLab.step (fun before _ e => e = .exitReturn → .funReturn ∈ before)
          TimerLab.my_init timer)) :=
  ⟨fun _ h => BottomHalf.tasklet_none_survives h,
    fun _ h => MmapLab.none_survives h,
    fun _ h => BottomHalf.workqueue_none_survives_iff h,
    fun _ h => TimerLab.none_survives_iff h⟩

/-- The timer has expired, and `thr_fun` returned, by the time the module is unloaded. -/
def timerDone : List TimerLab.Event :=
  [.expire .tlist, .exitCall, .exitDelTimer, .funReturn, .exitReturn]

theorem none_survives_timerDone :
    (∃ s, exec TimerLab.step TimerLab.my_init timerDone = some s) ∧
      NoneSurvives TimerLab.kmod timerDone :=
  ⟨⟨_, rfl⟩, ((none_survives_unload [] [] timerDone []).2.2.2 _ rfl).mpr (by decide)⟩

end KernelLab
