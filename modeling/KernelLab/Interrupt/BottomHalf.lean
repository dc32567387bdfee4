/-
# `KernelLab.Interrupt.BottomHalf` — the tasklet and work-queue labs, from load to unload

`interrupt_tasklet.c` and `interrupt_workqueue.c` differ in what they schedule and in
how they leave.  The handler counts and schedules `t_fun`, which counts in turn:

    my_interrupt                        t_fun
      atomic_inc(&counter_th)             atomic_inc(&counter_bh)
      tasklet_schedule / schedule_work    printk
      mdelay

    my_exit                             tasklet    work queue
      synchronize_irq(irq)                 ·           ·
      free_irq(irq, &my_data)              ·           ·
      tasklet_kill(&my_data.tsk)           ·           -
      printk                               ·           ·

Of the kernel it is assumed that scheduling what is pending changes nothing, that the
pending mark is taken away before `t_fun` runs, that `free_irq` lets no new handler
start and waits for those that run, and that `tasklet_kill` returns only when the
tasklet is neither pending nor running.  Any number of handlers and of runs of
`t_fun` may be midway at once.

## What is proved

`charged_of_exec`: every increment of `counter_bh`, and everything that will still
lead to one, has an increment of `counter_th` of its own.

`tasklet_none_survives`: behind `my_exit` of the tasklet lab nothing runs `t_fun`.

`workqueue_none_survives_iff`: in the work-queue lab that is so if and only if the
work was drained when `my_exit` returned, which nothing in `my_exit` sees to.
-/
import KernelLab.Lib.CInt
import KernelLab.Lib.Unload

namespace KernelLab.Interrupt.BottomHalf

open KernelLab.CInt KernelLab.Run KernelLab.Unload

inductive Lab where
  | tasklet
  | workqueue
  deriving DecidableEq, Repr

/-- Where `my_exit` stands. -/
inductive ExitPc where
  /-- not called -/
  | loaded
  | synchronize_irq
  /-- before `free_irq` -/
  | free_irq
  /-- in `free_irq`, waiting for handlers -/
  | free_irq_wait
  | tasklet_kill
  | printk
  | returned
  deriving DecidableEq, Repr

structure State where
  counter_th : Int
  counter_bh : Int
  /-- the pending mark of `my_data.tsk`, or of `my_data.work` -/
  pending : Bool
  /-- runs of `my_interrupt` before they schedule -/
  counted : Nat
  /-- runs of `my_interrupt` behind it, before they return -/
  scheduled : Nat
  /-- runs of `t_fun` before they count -/
  started : Nat
  /-- runs of `t_fun` behind it, before they return -/
  finishing : Nat
  exit : ExitPc
  deriving DecidableEq, Repr

/-- As `my_init` leaves the module, the handler registered. -/
def my_init : State := ⟨0, 0, false, 0, 0, 0, 0, .loaded⟩

inductive Event where
  | irqCount
  | irqSchedule
  | irqReturn
  | bhStart
  | bhCount
  | bhReturn
  | exitCall
  | exitSynchronize
  | exitFreeIrq
  | exitFreed
  | exitKill
  | exitReturn
  deriving DecidableEq, Repr

/-- The handler is on the list of its line, up to `free_irq`. -/
def ExitPc.registered : ExitPc → Bool
  | .loaded | .synchronize_irq | .free_irq => true
  | .free_irq_wait | .tasklet_kill | .printk | .returned => false

/-- `t_fun` is neither pending nor running. -/
def Idle (s : State) : Prop := s.pending = false ∧ s.started = 0 ∧ s.finishing = 0

instance decIdle (s : State) : Decidable (Idle s) :=
  inferInstanceAs (Decidable (_ ∧ _))

def step (lab : Lab) (s : State) : Event → Option State
  | .irqCount =>
      if s.exit.registered then
        some { s with counter_th := atomicInc s.counter_th, counted := s.counted + 1 }
      else none
  | .irqSchedule =>
      if 0 < s.counted then
        some { s with
          pending := true, counted := s.counted - 1, scheduled := s.scheduled + 1 }
      else none
  | .irqReturn =>
      if 0 < s.scheduled then some { s with scheduled := s.scheduled - 1 } else none
  | .bhStart =>
      if s.pending then some { s with pending := false, started := s.started + 1 } else none
  | .bhCount =>
      if 0 < s.started then
        some { s with
          counter_bh := atomicInc s.counter_bh
          started := s.started - 1, finishing := s.finishing + 1 }
      else none
  | .bhReturn =>
      if 0 < s.finishing then some { s with finishing := s.finishing - 1 } else none
  | .exitCall => if s.exit = .loaded then some { s with exit := .synchronize_irq } else none
  | .exitSynchronize =>
      if s.exit = .synchronize_irq ∧ s.counted = 0 ∧ s.scheduled = 0 then
        some { s with exit := .free_irq }
      else none
  | .exitFreeIrq => if s.exit = .free_irq then some { s with exit := .free_irq_wait } else none
  | .exitFreed =>
      if s.exit = .free_irq_wait ∧ s.counted = 0 ∧ s.scheduled = 0 then
        some { s with exit := if lab = .tasklet then .tasklet_kill else .printk }
      else none
  | .exitKill =>
      if s.exit = .tasklet_kill ∧ Idle s then some { s with exit := .printk } else none
  | .exitReturn => if s.exit = .printk then some { s with exit := .returned } else none

/-! ## The counters -/

/-- The counters are the increments made, as far as an `atomic_t` can tell. -/
structure Counts (es : List Event) (s : State) : Prop where
  th : s.counter_th = toInt (es.count .irqCount)
  bh : s.counter_bh = toInt (es.count .bhCount)
  /-- an increment of `counter_bh` made, under way or announced, for one of `counter_th` -/
  charged : es.count .bhCount + s.started + s.pending.toNat + s.counted ≤ es.count .irqCount

theorem Counts.init : Counts [] my_init := ⟨by decide, by decide, by decide⟩

/-- A step that touches neither counter. -/
theorem Counts.keep {es : List Event} {s s' : State} {e : Event} (h : Counts es s)
    (hth : e ≠ .irqCount) (hbh : e ≠ .bhCount) (hcth : s'.counter_th = s.counter_th)
    (hcbh : s'.counter_bh = s.counter_bh)
    (hle : s'.started + s'.pending.toNat + s'.counted ≤
      s.started + s.pending.toNat + s.counted) : Counts (es ++ [e]) s' := by
  have hc := h.charged
  refine ⟨?_, ?_, ?_⟩
  · rw [hcth, h.th, count_concat_ne hth]
  · rw [hcbh, h.bh, count_concat_ne hbh]
  · rw [count_concat_ne hth, count_concat_ne hbh]
    omega

theorem Counts.step {lab : Lab} {es : List Event} {s s' : State} {e : Event} (h : Counts es s)
    (he : step lab s e = some s') : Counts (es ++ [e]) s' := by
  cases e with
  | irqCount =>
      obtain ⟨-, rfl⟩ := accepted he
      have hc := h.charged
      refine ⟨?_, ?_, ?_⟩
      · rw [count_concat_self, Nat.cast_succ, ← atomicInc_toInt, ← h.th]
      · rw [count_concat_ne (by decide), h.bh]
      · rw [count_concat_self, count_concat_ne (by decide)]
        simp only
        omega
  | irqSchedule =>
      obtain ⟨hc, rfl⟩ := accepted he
      refine h.keep (by decide) (by decide) rfl rfl ?_
      simp only [Bool.toNat_true]
      omega
  | bhStart =>
      obtain ⟨hp, rfl⟩ := accepted he
      refine h.keep (by decide) (by decide) rfl rfl ?_
      simp only [hp, Bool.toNat_true, Bool.toNat_false]
      omega
  | bhCount =>
      obtain ⟨hs, rfl⟩ := accepted he
      have hc := h.charged
      refine ⟨?_, ?_, ?_⟩
      · rw [count_concat_ne (by decide), h.th]
      · rw [count_concat_self, Nat.cast_succ, ← atomicInc_toInt, ← h.bh]
      · rw [count_concat_self, count_concat_ne (by decide)]
        simp only
        omega
  | irqReturn | bhReturn | exitCall | exitSynchronize | exitFreeIrq | exitFreed | exitKill
  | exitReturn =>
      obtain ⟨-, rfl⟩ := accepted he
      exact h.keep (by decide) (by decide) rfl rfl (Nat.le_refl _)

theorem charged_of_exec {lab : Lab} {es : List Event} {s : State}
    (h : exec (step lab) my_init es = some s) : Counts es s :=
  invariant (step lab) (I := Counts) Counts.init (fun _ _ _ _ hI he => hI.step he) es s h

/-! ## What `my_exit` leaves behind -/

/-- `free_irq` has returned. -/
def ExitPc.freed : ExitPc → Bool
  | .tasklet_kill | .printk | .returned => true
  | .loaded | .synchronize_irq | .free_irq | .free_irq_wait => false

theorem not_freed_of_registered {pc : ExitPc} (h : pc.registered = true) : pc.freed ≠ true := by
  cases pc <;> simp_all [ExitPc.registered, ExitPc.freed]

/-- Behind `free_irq` no handler is midway. -/
def Freed (s : State) : Prop := s.exit.freed = true → s.counted = 0 ∧ s.scheduled = 0

theorem Freed.step {lab : Lab} {s s' : State} {e : Event} (h : Freed s)
    (he : step lab s e = some s') : Freed s' := by
  cases e with
  | irqCount =>
      obtain ⟨hr, rfl⟩ := accepted he
      exact fun hf => absurd hf (not_freed_of_registered hr)
  | irqSchedule | irqReturn =>
      obtain ⟨hc, rfl⟩ := accepted he
      intro hf
      have := h hf
      omega
  | bhStart | bhCount | bhReturn =>
      obtain ⟨-, rfl⟩ := accepted he
      exact h
  | exitCall | exitFreeIrq =>
      obtain ⟨-, rfl⟩ := accepted he
      intro hf
      cases hf
  | exitSynchronize | exitFreed =>
      obtain ⟨⟨-, hc⟩, rfl⟩ := accepted he
      exact fun _ => hc
  | exitKill =>
      obtain ⟨⟨hx, -⟩, rfl⟩ := accepted he
      exact fun _ => h (by rw [hx]; rfl)
  | exitReturn =>
      obtain ⟨hx, rfl⟩ := accepted he
      exact fun _ => h (by rw [hx]; rfl)

theorem freed_of_exec {lab : Lab} {es : List Event} {s : State}
    (h : exec (step lab) my_init es = some s) : Freed s :=
  invariant (step lab) (I := fun _ s => Freed s) (fun hf => absurd hf (by decide))
    (fun _ _ _ _ hI he => hI.step he) es s h

/-- The lab as a module with an exit function. -/
def kmod (lab : Lab) : Kmod State Event where
  step := step lab
  init := my_init
  Returned s := s.exit = .returned
  Idle := Idle
  Callback e := e = .bhStart ∨ e = .bhCount ∨ e = .bhReturn
  exitReturn := .exitReturn

/-- Unloaded, with nobody left to schedule `t_fun` or to run it. -/
structure Gone (s : State) : Prop where
  exit : s.exit = .returned
  counted : s.counted = 0
  scheduled : s.scheduled = 0
  idle : Idle s

theorem Gone.step {lab : Lab} {s s' : State} {e : Event} (h : Gone s)
    (he : step lab s e = some s') : Gone s' ∧ ¬ (kmod lab).Callback e := by
  obtain ⟨hx, hc, hs, hp, hst, hf⟩ := h
  -- every step asks for something that is gone
  cases e with
  | irqCount | exitCall | exitFreeIrq | exitReturn =>
      obtain ⟨hr, -⟩ := accepted he
      rw [hx] at hr
      cases hr
  | exitSynchronize | exitFreed | exitKill =>
      obtain ⟨⟨hr, -⟩, -⟩ := accepted he
      rw [hx] at hr
      cases hr
  | bhStart =>
      obtain ⟨hr, -⟩ := accepted he
      rw [hp] at hr
      cases hr
  | irqSchedule | irqReturn | bhCount | bhReturn =>
      obtain ⟨hr, -⟩ := accepted he
      omega

theorem returned_only {lab : Lab} {s s' : State} {e : Event} (he : step lab s e = some s')
    (hret : s'.exit = .returned) : s.exit = .returned ∨ e = .exitReturn := by
  cases e with
  | exitReturn => exact .inr rfl
  | exitFreed =>
      obtain ⟨-, rfl⟩ := accepted he
      cases lab <;> cases hret
  | exitCall | exitSynchronize | exitFreeIrq | exitKill =>
      obtain ⟨-, rfl⟩ := accepted he
      cases hret
  | irqCount | irqSchedule | irqReturn | bhStart | bhCount | bhReturn =>
      obtain ⟨-, rfl⟩ := accepted he
      exact .inl hret

theorem lawful (lab : Lab) : Lawful (kmod lab) Gone where
  loaded h := by cases h
  returned he := by
    obtain ⟨-, rfl⟩ := accepted he
    exact ⟨rfl, Iff.rfl⟩
  only := returned_only
  enter {_ s} h hret hidle := by
    have hx : s.exit = .returned := hret
    obtain ⟨hc, hs⟩ := freed_of_exec h (by rw [hx]; rfl)
    exact ⟨hx, hc, hs, hidle⟩
  idle h := h.idle
  stable h he := h.step he

/-! ## The tasklet is killed -/

/-- Behind `tasklet_kill` the tasklet is idle. -/
def Killed (s : State) : Prop := s.exit = .printk ∨ s.exit = .returned → Idle s

theorem Killed.step {s s' : State} {e : Event} (hf : Freed s) (h : Killed s)
    (he : step .tasklet s e = some s') : Killed s' := by
  have hfreed : s.exit = .printk ∨ s.exit = .returned → s.exit.freed = true := by
    rintro (hx | hx) <;> rw [hx] <;> rfl
  cases e with
  | irqCount | irqReturn =>
      obtain ⟨-, rfl⟩ := accepted he
      exact h
  | irqSchedule =>
      obtain ⟨hc, rfl⟩ := accepted he
      intro hx
      have := hf (hfreed hx)
      omega
  | bhStart =>
      obtain ⟨hp, rfl⟩ := accepted he
      intro hx
      have hidle := (h hx).1
      rw [hp] at hidle
      cases hidle
  | bhCount =>
      obtain ⟨hp, rfl⟩ := accepted he
      intro hx
      have := (h hx).2.1
      omega
  | bhReturn =>
      obtain ⟨hp, rfl⟩ := accepted he
      intro hx
      have := (h hx).2.2
      omega
  | exitKill =>
      obtain ⟨⟨-, hidle⟩, rfl⟩ := accepted he
      exact fun _ => hidle
  | exitReturn =>
      obtain ⟨hx, rfl⟩ := accepted he
      exact fun _ => h (.inl hx)
  | exitCall | exitSynchronize | exitFreeIrq | exitFreed =>
      obtain ⟨-, rfl⟩ := accepted he
      rintro (hx | hx) <;> cases hx

theorem killed_of_exec {es : List Event} {s : State}
    (h : exec (step .tasklet) my_init es = some s) : Killed s := by
  refine (invariant (step .tasklet) (I := fun _ s => Freed s ∧ Killed s) ⟨?_, ?_⟩ ?_ es s h).2
  · exact fun hf => absurd hf (by decide)
  · rintro (hx | hx) <;> cases hx
  · exact fun _ _ _ _ hI he => ⟨hI.1.step he, Killed.step hI.1 hI.2 he⟩

theorem tasklet_none_survives {es : List Event} {s : State}
    (h : exec (step .tasklet) my_init es = some s) : NoneSurvives (kmod .tasklet) es := by
  refine (lawful .tasklet).noneSurvives_of_idle ?_ h
  intro es s s' hs he
  obtain ⟨hx, -⟩ := accepted he
  exact killed_of_exec hs (.inl hx)

/-! ## The work item is not cancelled -/

/-- The last `schedule_work` was followed by a run of `t_fun`, and every run that
started has returned. -/
def Drained (es : List Event) : Prop :=
  ¬ Since .irqSchedule .bhStart es ∧ es.count .bhStart = es.count .bhReturn

/-- The state of the work item, from the schedule. -/
structure Traced (es : List Event) (s : State) : Prop where
  pending : s.pending = true ↔ Since .irqSchedule .bhStart es
  running : s.started + s.finishing + es.count .bhReturn = es.count .bhStart

theorem Traced.init : Traced [] my_init where
  pending := iff_of_false (by decide) (not_since_nil _ _)
  running := rfl

/-- A step that the work item takes no part in. -/
theorem Traced.keep {es : List Event} {s s' : State} {e : Event} (h : Traced es s)
    (hsched : e ≠ .irqSchedule) (hstart : e ≠ .bhStart) (hret : e ≠ .bhReturn)
    (hp : s'.pending = s.pending)
    (hrun : s'.started + s'.finishing = s.started + s.finishing) : Traced (es ++ [e]) s' where
  pending := by rw [hp, since_concat hsched hstart, h.pending]
  running := by rw [hrun, count_concat_ne hret, count_concat_ne hstart, h.running]

theorem Traced.step {lab : Lab} {es : List Event} {s s' : State} {e : Event} (h : Traced es s)
    (he : step lab s e = some s') : Traced (es ++ [e]) s' := by
  have hrun := h.running
  cases e with
  | irqSchedule =>
      obtain ⟨-, rfl⟩ := accepted he
      refine ⟨iff_of_true rfl (since_concat_self _ _ es), ?_⟩
      rw [count_concat_ne (by decide), count_concat_ne (by decide)]
      exact hrun
  | bhStart =>
      obtain ⟨-, rfl⟩ := accepted he
      refine ⟨iff_of_false (by simp) (not_since_concat (by decide) es), ?_⟩
      rw [count_concat_ne (by decide), count_concat_self]
      simp only
      omega
  | bhCount =>
      obtain ⟨hs, rfl⟩ := accepted he
      refine h.keep (by decide) (by decide) (by decide) rfl ?_
      simp only
      omega
  | bhReturn =>
      obtain ⟨hf, rfl⟩ := accepted he
      refine ⟨h.pending.trans (since_concat (by decide) (by decide)).symm, ?_⟩
      rw [count_concat_self, count_concat_ne (by decide)]
      simp only
      omega
  | irqCount | irqReturn | exitCall | exitSynchronize | exitFreeIrq | exitFreed | exitKill
  | exitReturn =>
      obtain ⟨-, rfl⟩ := accepted he
      exact h.keep (by decide) (by decide) (by decide) rfl rfl

theorem traced_of_exec {lab : Lab} {es : List Event} {s : State}
    (h : exec (step lab) my_init es = some s) : Traced es s :=
  invariant (step lab) (I := Traced) Traced.init (fun _ _ _ _ hI he => hI.step he) es s h

theorem idle_iff_drained {lab : Lab} {es : List Event} {s : State}
    (h : exec (step lab) my_init es = some s) : Idle s ↔ Drained es := by
  have ht := traced_of_exec h
  have hrun := ht.running
  unfold Idle Drained
  rw [← ht.pending, Bool.not_eq_true]
  refine and_congr_right fun _ => ?_
  omega

theorem workqueue_none_survives_iff {es : List Event} {s : State}
    (h : exec (step .workqueue) my_init es = some s) :
    NoneSurvives (kmod .workqueue) es ↔
      Meets (step .workqueue) (fun before _ e => e = .exitReturn → Drained before) my_init es :=
  (lawful .workqueue).noneSurvives_iff_meets Drained (fun hs _ => idle_iff_drained hs) h

end KernelLab.Interrupt.BottomHalf
