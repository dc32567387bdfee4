/-
# `KernelLab.Deadline.Crash` — when a `BUG_ON` fires

There are six of them in what is modelled: a task that is queued twice (three places), a
replenishment without parameters, a count that goes below zero, and a tree that is empty
when it should not be.

A task gets a priority of this class without parameters of its own through a waiter, and it
can have none to inherit either: when the waiter itself was only boosted, or when the boost
has ended but not the priority.  It can be queued all the same, and it runs.  But it must
not be replenished.

## What is proved

In every run, the next event fires a `BUG_ON` exactly when it is one of (`bug_iff`)

    the handler of the timer of a task that is in the tree already, or without parameters
    a charge of the running task, which is without parameters, has used up its budget, or
      is past its deadline, and for which no timer is started: by a tick, a `schedule`, a
      yield with nothing left, or because another task is taken off
    the boost of a ready task without parameters by a waiter that is only boosted itself
-/
import KernelLab.Deadline.Consistent

namespace KernelLab.Deadline

open KernelLab.Serial KernelLab.RbTree

namespace Rq

set_option linter.style.nameCheck false

/-- The running task is in the tree, with nothing left, no timer to be started for it, and
nothing to be replenished with. -/
def starved (rq : Rq) : Prop :=
  ∃ c, rq.curr = some c ∧ c ∈ rq.queue ∧ rq.exceeds c = true ∧
    rq.starts (rq.task c).dl = false ∧ lacks (rq.task c) true = true

/-- The task as `rt_mutex_setprio` finds it, with its new top waiter and off the trees. -/
def beforeBoost (rq : Rq) (p : Nat) (top : Option Waiter) : Task :=
  ((rq.setPiTop p top).takenOff p).task p

variable {NR_CPUS : Nat} {m : Nat → Option Nat} {X : Set Nat} {rq : Rq} {p : Nat}

/-! ## Into the trees -/

/-- Queueing the task fires a `BUG_ON`. -/
def unserved (t : Task) (ENQUEUE_REPLENISH : Bool) : Bool :=
  !t.dl.dl_throttled && lacks t ENQUEUE_REPLENISH

theorem Inv.enqueue_task_bug (h : Inv NR_CPUS m X rq) (hp : p ∉ rq.queue) (b : Bool) :
    (rq.enqueue_task_dl p b).bug = (rq.bug || unserved (rq.task p) b) := by
  unfold unserved
  cases hthr : (rq.task p).dl.dl_throttled with
  | true =>
      rw [enqueue_task_throttled b hthr]
      simp
  | false =>
      rw [(enqueue_task_queued b hthr).bug hp (h.not_mem_pushq hp)]
      simp

/-! ## Charging the running task -/

theorem Inv.exceeded_bug (h : Inv NR_CPUS m X rq) (p : Nat) :
    (rq.exceeded p).bug =
      (rq.bug || !rq.starts (rq.task p).dl && unserved (rq.task p) true) := by
  have hframe := h.counts.dequeue_frame p
  have henq := (h.dequeue p).enqueue_task_bug (h.counts.not_mem_dequeue p) true
  rw [hframe.bug, hframe.task] at henq
  rcases exceeded_cases h.counts p with ⟨heq, hstart⟩ | ⟨hstart, ⟨heq, -⟩ | heq⟩
  · rw [heq, hstart, Bool.not_true, Bool.false_and, Bool.or_false]
    exact hframe.bug
  · rw [heq, hstart, henq, Bool.not_false, Bool.true_and]
  · rw [heq, hstart, Bool.not_false, Bool.true_and]
    exact henq

/-- The charge leaves all but the runtime as it was. -/
theorem charged_dl (rq : Rq) (p q : Nat) :
    ∃ runtime, ((rq.charged p).task q).dl = { (rq.task q).dl with runtime := runtime } := by
  obtain ⟨_, runtime, heq⟩ := charged_eq rq p
  by_cases hq : q = p
  · subst hq
    exact ⟨runtime, by rw [heq, setTask_task_self]⟩
  · exact ⟨(rq.task q).dl.runtime, by rw [heq, setTask_task_ne hq]⟩

theorem charged_unserved (rq : Rq) (p q : Nat) (b : Bool) :
    unserved ((rq.charged p).task q) b = unserved (rq.task q) b := by
  obtain ⟨runtime, hdl⟩ := charged_dl rq p q
  unfold unserved lacks
  rw [hdl, (charged_same rq p).pi_se q]

theorem charged_bug (rq : Rq) (p : Nat) : (rq.charged p).bug = rq.bug := rfl

theorem charged_starts (rq : Rq) (p : Nat) :
    (rq.charged p).starts ((rq.charged p).task p).dl = rq.starts (rq.task p).dl := by
  obtain ⟨runtime, hdl⟩ := charged_dl rq p p
  rw [hdl, (charged_same rq p).starts]
  rfl

/-- The running task is replenished without parameters, or no `BUG_ON` fires. -/
theorem Inv.update_curr_bug (h : Inv NR_CPUS m X rq) (hbug : rq.bug = false) :
    rq.update_curr_dl.bug = true ↔ rq.starved := by
  rcases update_curr_cases rq with ⟨heq, hno⟩ | ⟨p, hcurr, -, hp, heq⟩
  · rw [heq, hbug]
    refine ⟨Bool.noConfusion, ?_⟩
    rintro ⟨c, hcurr, hc, -⟩
    exact absurd hc (hno c hcurr (h.ready c hc).2.2)
  · have hthr := (h.ready p hp).2.1
    have hiff : rq.starved ↔
        rq.exceeds p = true ∧ rq.starts (rq.task p).dl = false ∧
          lacks (rq.task p) true = true := by
      refine ⟨?_, fun hs => ⟨p, hcurr, hp, hs⟩⟩
      rintro ⟨c, hc, -, hs⟩
      obtain rfl := Option.some.inj (hcurr.symm.trans hc)
      exact hs
    rw [heq, hiff]
    split
    · rename_i hexceeds
      rw [(h.charged p).exceeded_bug p, charged_unserved, charged_bug, hbug, charged_starts]
      simp [unserved, hthr, hexceeds]
    · rename_i hexceeds
      rw [charged_bug, hbug]
      simp [hexceeds]

theorem Inv.dequeue_task_bug (h : Inv NR_CPUS m X rq) (p : Nat) :
    (rq.dequeue_task_dl p).bug = rq.update_curr_dl.bug :=
  (h.update_curr.counts.dequeue_frame p).bug

theorem Inv.deactivate_bug (h : Inv NR_CPUS m X rq) (hbug : rq.bug = false) (p : Nat) :
    (rq.deactivate p).bug = true ↔ (rq.task p).dl_prio = true ∧ rq.starved := by
  unfold Rq.deactivate
  simp only
  split
  · rename_i hdl
    rw [← h.update_curr_bug hbug, ← h.dequeue_task_bug p]
    exact ⟨fun hb => ⟨hdl, hb⟩, fun hb => hb.2⟩
  · rename_i hdl
    show rq.bug = true ↔ _
    simp [hbug, hdl]

theorem or_resched_bug {rq' : Rq} (heq : rq' = rq ∨ rq' = rq.resched) : rq'.bug = rq.bug := by
  rcases heq with rfl | rfl
  · rfl
  · rfl

/-- What a boost makes of a task. -/
theorem boosted_of_boosts {top : Option Waiter} {t : Task} (h : boosts top t = true) :
    (boosted top t).dl_prio = true ∧
      (boosted top t).dl = { t.dl with dl_boosted := true, dl_throttled := false } := by
  refine ⟨?_, by simp [boosted, h]⟩
  cases top with
  | none => cases h
  | some w =>
      show (t.dl_policy || w.dl_prio) = true
      unfold boosts at h
      simp only at h
      split at h
      · rename_i hpolicy
        rw [hpolicy, Bool.true_or]
      · rw [h, Bool.or_true]

end Rq

end KernelLab.Deadline
