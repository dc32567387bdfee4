/-
# `KernelLab.Deadline.Consistent` — every event keeps the runqueue in order

Each event is a few of the class's operations on one task: it is taken out, with `Inv ∅`
weakened to `Inv {p}`, changed, and put back.

A timer that fires for a task which is already queued is the one way to break the trees,
and there a `BUG_ON` fires: nothing is said from then on.
-/
import KernelLab.Deadline.Class

namespace KernelLab.Deadline

open KernelLab.Serial KernelLab.RbTree KernelLab.Run

namespace Rq

set_option linter.style.nameCheck false

variable {NR_CPUS : Nat} {m : Nat → Option Nat} {X : Set Nat} {rq : Rq} {p : Nat}

/-! ## Looking whether to reschedule -/

theorem check_preempt_equal_cases (rq : Rq) (curr p : Nat) :
    rq.check_preempt_equal_dl curr p = rq ∨ rq.check_preempt_equal_dl curr p = rq.resched := by
  unfold check_preempt_equal_dl
  simp only
  split
  · exact .inl rfl
  · split
    · exact .inl rfl
    · exact .inr rfl

theorem check_preempt_curr_dl_cases (rq : Rq) (curr p : Nat) :
    rq.check_preempt_curr_dl curr p = rq ∨ rq.check_preempt_curr_dl curr p = rq.resched := by
  unfold check_preempt_curr_dl
  split
  · exact .inr rfl
  · split
    · exact check_preempt_equal_cases rq curr p
    · exact .inl rfl

theorem check_preempt_curr_cases (rq : Rq) (p : Nat) :
    rq.check_preempt_curr p = rq ∨ rq.check_preempt_curr p = rq.resched := by
  unfold check_preempt_curr
  split
  · split
    · exact .inl rfl
    · split
      · exact check_preempt_curr_dl_cases ..
      · exact .inr rfl
  · exact .inr rfl

theorem switched_to_cases (rq : Rq) (p : Nat) :
    rq.switched_to_dl p = rq ∨ rq.switched_to_dl p = rq.resched := by
  unfold switched_to_dl
  split
  · exact .inl rfl
  · split
    · split
      · split
        · exact check_preempt_curr_dl_cases ..
        · exact .inl rfl
      · exact .inl rfl
    · exact .inl rfl

theorem prio_changed_cases (rq : Rq) (p : Nat) :
    rq.prio_changed_dl p = rq ∨ rq.prio_changed_dl p = rq.resched := by
  unfold prio_changed_dl
  split
  · split
    · exact .inr rfl
    · exact .inl rfl
  · exact switched_to_cases rq p

theorem Inv.or_resched (h : Inv NR_CPUS m X rq) {rq' : Rq} (heq : rq' = rq ∨ rq' = rq.resched) :
    Inv NR_CPUS m X rq' := by
  rcases heq with rfl | rfl
  · exact h
  · exact h.resched

theorem or_resched_task {rq' : Rq} (heq : rq' = rq ∨ rq' = rq.resched) : rq'.task = rq.task := by
  rcases heq with rfl | rfl
  · rfl
  · rfl

/-! ## Waking up and going to sleep -/

theorem activate_cases (rq : Rq) (p : Nat) :
    rq.activate p = rq.activate_task p ∨ rq.activate p = (rq.activate_task p).resched := by
  unfold activate
  simp only
  split
  · exact check_preempt_curr_cases ..
  · exact .inl rfl

theorem arrive_cases (rq : Rq) (p : Nat) (how : Arrival) :
    rq.arrive p how = rq.activate_task p ∨
      rq.arrive p how = (rq.activate_task p).resched := by
  cases how with
  | moved => exact activate_cases rq p
  | pushed => exact .inr rfl
  | pulled => exact .inl rfl

theorem Inv.activate_task (h : Inv NR_CPUS m {p} rq) (hp : p ∉ rq.queue) :
    Inv NR_CPUS m ∅ (rq.activate_task p) := by
  have hparams := h.policy p
  have hset : Inv NR_CPUS m (insert p ∅) (rq.setTask p fun t => { t with on_rq := true }) := by
    rw [insert_empty_eq]
    exact h.setTask_off hp rfl hparams
  have htask : (rq.setTask p fun t => { t with on_rq := true }).task p =
      { rq.task p with on_rq := true } := setTask_task_self ..
  unfold Rq.activate_task
  simp only
  split
  · rename_i hdl
    rw [htask] at hdl
    refine hset.enqueue_task hp ?_ ?_ false
    · rw [htask]
    · rw [htask]
      exact hdl
  · rename_i hdl
    rw [htask] at hdl
    refine hset.close fun _ => ⟨fun _ => ⟨?_, h.not_mem_pushq hp⟩, fun _ _ hdl' => ?_⟩
    · rw [htask]
    · rw [htask] at hdl'
      exact absurd hdl' hdl

theorem Inv.activate (h : Inv NR_CPUS m ∅ rq) (hp : p ∉ rq.queue) :
    Inv NR_CPUS m ∅ (rq.activate p) :=
  ((h.mono (Set.empty_subset {p})).activate_task hp).or_resched (activate_cases rq p)

/-- A task comes from another CPU. -/
theorem Inv.arrive (h : Inv NR_CPUS m ∅ rq) (hp : p ∉ rq.queue) {t : Task} (ht : HasParams t)
    (how : Arrival) : Inv NR_CPUS m ∅ ((rq.setTask p fun _ => t).arrive p how) := by
  have hset := (h.mono (Set.empty_subset {p})).setTask_off hp rfl (f := fun _ => t) ht
  exact (hset.activate_task hp).or_resched (arrive_cases _ p how)

/-- The task is off the trees, and the rest as it was. -/
theorem Inv.deactivate (h : Inv NR_CPUS m X rq) (p : Nat) :
    Inv NR_CPUS m (insert p X) (rq.deactivate p) ∧ p ∉ (rq.deactivate p).queue ∧
      (rq.deactivate p).curr = rq.curr ∧ ((rq.deactivate p).task p).on_rq = false ∧
      (∀ q, q ≠ p → ((rq.deactivate p).task q).on_rq = (rq.task q).on_rq) ∧
      ∀ q, ((rq.deactivate p).task q).dl_prio = (rq.task q).dl_prio := by
  obtain ⟨rq', hrq', hInv, hp, hsame⟩ : ∃ rq', rq.deactivate p =
        rq'.setTask p (fun t => { t with on_rq := false }) ∧
      Inv NR_CPUS m (insert p X) rq' ∧ p ∉ rq'.queue ∧ Same rq rq' := by
    unfold Rq.deactivate
    simp only
    split
    · obtain ⟨hInv, hp⟩ := h.dequeue_task p
      exact ⟨_, rfl, hInv, hp, dequeue_task_same h p⟩
    · rename_i hdl
      exact ⟨_, rfl, h.mono (Set.subset_insert p X), fun hq => hdl (h.ready p hq).2.2, .rfl⟩
  have hparams := hInv.policy p
  rw [hrq']
  refine ⟨hInv.setTask_off hp (Set.mem_insert p X) hparams, hp, hsame.curr, ?_, ?_, ?_⟩
  · rw [setTask_task_self]
  · intro q hq
    rw [setTask_task_ne hq]
    exact hsame.on_rq q
  · intro q
    by_cases hq : q = p
    · subst hq
      rw [setTask_task_self]
      exact hsame.dl_prio q
    · rw [setTask_task_ne hq]
      exact hsame.dl_prio q

/-! ## The timer -/

theorem timerPreempt_cases (rq : Rq) (p : Nat) :
    rq.timerPreempt p = rq ∨ rq.timerPreempt p = rq.resched := by
  unfold timerPreempt
  split
  · split
    · exact check_preempt_curr_dl_cases ..
    · exact .inr rfl
  · exact .inr rfl

/-- A second time into the trees. -/
theorem enqueue_task_twice (hthr : (rq.task p).dl.dl_throttled = false) (hp : p ∈ rq.queue)
    (b : Bool) : (rq.enqueue_task_dl p b).bug = true := by
  exact (enqueue_task_queued b hthr).twice hp

/-- The task, no longer throttled, with the handler of its timer at work. -/
def unthrottled (rq : Rq) (p : Nat) : Rq :=
  (rq.setDlSe p fun dl_se => { dl_se with handler := false }).setDlSe p fun dl_se =>
    { dl_se with dl_throttled := false }

theorem unthrottled_eq (rq : Rq) (p : Nat) :
    rq.unthrottled p =
      rq.setDlSe p fun dl_se => { dl_se with handler := false, dl_throttled := false } := by
  simp [unthrottled, setDlSe, Rq.setTask]

/-- What the timer does. -/
theorem timer_cases (rq : Rq) (p : Nat) :
    (((rq.task p).dl_prio = false ∨ (rq.task p).dl.dl_new = true) ∧
      rq.dl_task_timer p = rq.setDlSe p fun dl_se => { dl_se with handler := false }) ∨
    ((rq.task p).dl_prio = true ∧ (rq.task p).dl.dl_new = false ∧
      ((rq.task p).on_rq = true ∧
          rq.dl_task_timer p = ((rq.unthrottled p).enqueue_task_dl p true).timerPreempt p ∨
        (rq.task p).on_rq = false ∧ rq.dl_task_timer p = rq.unthrottled p)) := by
  have hprio : ((rq.setDlSe p fun dl_se => { dl_se with handler := false }).task p).dl_prio =
      (rq.task p).dl_prio := by rw [setDlSe_task_self]
  have hnew : ((rq.setDlSe p fun dl_se => { dl_se with handler := false }).task p).dl.dl_new =
      (rq.task p).dl.dl_new := by rw [setDlSe_task_self]
  have hon : ((rq.unthrottled p).task p).on_rq = (rq.task p).on_rq := by
    rw [unthrottled_eq, setDlSe_task_self]
  unfold dl_task_timer
  simp only [hprio, hnew]
  cases h₁ : (rq.task p).dl_prio with
  | false => exact .inl ⟨.inl rfl, rfl⟩
  | true =>
      cases h₂ : (rq.task p).dl.dl_new with
      | true => exact .inl ⟨.inr rfl, rfl⟩
      | false =>
          refine .inr ⟨rfl, rfl, ?_⟩
          cases h₃ : (rq.task p).on_rq with
          | true =>
              rw [h₃] at hon
              exact .inl ⟨rfl, if_pos hon⟩
          | false =>
              rw [h₃, ← Bool.not_eq_true] at hon
              exact .inr ⟨rfl, if_neg hon⟩

theorem Inv.timer (h : Inv NR_CPUS m ∅ rq) (hbug : (rq.dl_task_timer p).bug = false) :
    Inv NR_CPUS m ∅ (rq.dl_task_timer p) := by
  have htask : (rq.unthrottled p).task p = { rq.task p with
      dl := { (rq.task p).dl with handler := false, dl_throttled := false } } := by
    rw [unthrottled_eq, setDlSe_task_self]
  have hoff : p ∉ rq.queue → Inv NR_CPUS m (insert p ∅) (rq.unthrottled p) := by
    intro hp
    have hparams := h.policy p
    rw [unthrottled_eq]
    exact (h.mono (Set.subset_insert p ∅)).setTask_off hp (Set.mem_insert p ∅) hparams
  rcases timer_cases rq p with ⟨-, heq⟩ | ⟨hprio, -, ⟨hon, heq⟩ | ⟨hon, heq⟩⟩
  · rw [heq]
    exact h.setTask ⟨rfl, rfl, rfl, rfl, rfl⟩ (fun _ => rfl) fun _ => rfl
  · have hp : p ∉ rq.queue := by
      intro hp
      have hp' : p ∈ (rq.unthrottled p).queue := hp
      have htwice := enqueue_task_twice (by rw [htask]) hp' true
      rw [heq, (timerPreempt_cases _ p).elim (congrArg Rq.bug) (congrArg Rq.bug), htwice] at hbug
      cases hbug
    rw [heq]
    refine Inv.or_resched ((hoff hp).enqueue_task hp ?_ ?_ true) (timerPreempt_cases _ p)
    · rw [htask]
      exact hon
    · rw [htask]
      exact hprio
  · have hp : p ∉ rq.queue := by
      intro hp
      rw [(h.ready p hp).1] at hon
      cases hon
    rw [heq]
    refine (hoff hp).close fun hX => ⟨fun hcurr => ?_, fun _ hon' _ => ?_⟩
    · rw [h.curr_on p hX hcurr] at hon
      cases hon
    · rw [htask] at hon'
      rw [show (rq.task p).on_rq = true from hon'] at hon
      cases hon

/-! ## A change of priority or parameters -/

theorem Inv.update_curr_of_off (hcurr : rq.curr = some p) (hp : p ∉ rq.queue) :
    rq.update_curr_dl = rq := by
  rcases update_curr_cases rq with ⟨heq, -⟩ | ⟨q, hq, -, hmem, -⟩
  · exact heq
  · rw [hcurr] at hq
    obtain rfl := Option.some.inj hq
    exact absurd hmem hp

theorem put_prev_of_off (hcurr : rq.curr = some p) (hp : p ∉ rq.queue) :
    rq.put_prev_task_dl p = rq := by
  unfold put_prev_task_dl
  rw [Inv.update_curr_of_off hcurr hp]
  exact if_neg fun hon => hp hon.1

/-- Once a task is off the trees there is nothing to put back. -/
theorem Inv.takenOff_eq (h : Inv NR_CPUS m X rq) (p : Nat) :
    rq.takenOff p =
      if (rq.task p).dl_prio ∧ (rq.task p).on_rq then rq.dequeue_task_dl p else rq := by
  unfold Rq.takenOff
  cases hprio : (rq.task p).dl_prio with
  | false => simp
  | true =>
      cases hon : (rq.task p).on_rq with
      | true =>
          simp only [if_true, true_and]
          split
          · rename_i hcurr
            exact put_prev_of_off hcurr (h.dequeue_task p).2
          · rfl
      | false =>
          have hp : p ∉ rq.queue := by
            intro hp
            rw [(h.ready p hp).1] at hon
            cases hon
          simp only [if_true, Bool.false_eq_true, if_false, and_false]
          split
          · rename_i hcurr
            exact put_prev_of_off hcurr hp
          · rfl

/-- Taken off before a change. -/
theorem Inv.takenOff (h : Inv NR_CPUS m {p} rq) :
    Inv NR_CPUS m {p} (rq.takenOff p) ∧ p ∉ (rq.takenOff p).queue ∧ Same rq (rq.takenOff p) := by
  rw [h.takenOff_eq p]
  split
  · obtain ⟨hInv, hp⟩ := h.dequeue_task p
    rw [Set.insert_eq_of_mem (Set.mem_singleton p)] at hInv
    exact ⟨hInv, hp, dequeue_task_same h p⟩
  · rename_i hno
    exact ⟨h, fun hq => hno ⟨(h.ready p hq).2.2, (h.ready p hq).1⟩, .rfl⟩

theorem Inv.set_curr_task (h : Inv NR_CPUS m X rq) (p : Nat) :
    Inv NR_CPUS m X (rq.set_curr_task_dl p) ∧ (rq.set_curr_task_dl p).queue = rq.queue ∧
      Same rq (rq.set_curr_task_dl p) ∧
      ((rq.set_curr_task_dl p).task p).dl = (rq.task p).dl ∧
      (rq.set_curr_task_dl p).bug = rq.bug := by
  have hset : Inv NR_CPUS m X (rq.setTask p fun t => { t with exec_start := rq.clock_task }) :=
    h.setTask ⟨rfl, rfl, rfl, rfl, rfl⟩ (fun _ => rfl) fun _ => rfl
  obtain ⟨hdeq, hframe, hqueue, -⟩ := hset.dequeue_pushable p
  refine ⟨hdeq, hqueue, Same.trans ?_ hframe.same, ?_, hframe.bug⟩
  · exact .of_update rfl rfl rfl rfl rfl rfl rfl rfl rfl rfl rfl rfl rfl rfl .rfl id id id
  · unfold set_curr_task_dl
    rw [hframe.task, setTask_task_self]

/-- Put back after it. -/
theorem Inv.putBack (h : Inv NR_CPUS m {p} rq) (hp : p ∉ rq.queue)
    (hcurr : rq.curr = some p → (rq.task p).on_rq = true) (prev b : Bool) :
    Inv NR_CPUS m ∅ (rq.putBack p prev b) := by
  have hclose : ∀ {rq' : Rq}, Inv NR_CPUS m {p} rq' → Same rq rq' → p ∉ rq'.queue →
      ((rq'.task p).on_rq = true → (rq'.task p).dl_prio = true → False) →
      Inv NR_CPUS m ∅ rq' := by
    intro rq' hInv hsame hp' hno
    rw [← insert_empty_eq] at hInv
    refine hInv.close fun _ => ⟨fun hc => ⟨?_, hInv.not_mem_pushq hp'⟩,
      fun _ h₁ h₂ => (hno h₁ h₂).elim⟩
    rw [hsame.on_rq]
    exact hcurr (hsame.curr.symm.trans hc)
  unfold Rq.putBack
  split
  · rename_i hdl
    simp only
    obtain ⟨hInv, hq, hsame⟩ : Inv NR_CPUS m {p}
        (if rq.curr = some p then rq.set_curr_task_dl p else rq) ∧
        (if rq.curr = some p then rq.set_curr_task_dl p else rq).queue = rq.queue ∧
        Same rq (if rq.curr = some p then rq.set_curr_task_dl p else rq) := by
      split
      · obtain ⟨hInv, hq, hsame, -⟩ := h.set_curr_task p
        exact ⟨hInv, hq, hsame⟩
      · exact ⟨h, rfl, .rfl⟩
    generalize (if rq.curr = some p then rq.set_curr_task_dl p else rq) = rq₁ at hInv hq hsame ⊢
    rw [← hq] at hp
    have hInv' : Inv NR_CPUS m ∅
        (if (rq₁.task p).on_rq then rq₁.enqueue_task_dl p b else rq₁) := by
      split
      · rename_i hon
        rw [← insert_empty_eq] at hInv
        refine hInv.enqueue_task hp hon ?_ b
        rw [hsame.dl_prio]
        exact hdl
      · rename_i hon
        exact hclose hInv hsame hp fun h₁ _ => hon h₁
    split
    · exact hInv'.or_resched (prio_changed_cases _ p)
    · exact hInv'.or_resched (switched_to_cases _ p)
  · rename_i hdl
    exact hclose h .rfl hp fun _ h₂ => hdl h₂

/-- The timer is none of the invariant's business. -/
theorem Inv.setTimer (h : Inv NR_CPUS m X rq) (p : Nat) (timer handler : Entity → Bool) :
    Inv NR_CPUS m X (rq.setDlSe p fun dl_se =>
      { dl_se with dl_timer := timer dl_se, handler := handler dl_se }) :=
  h.setTask ⟨rfl, rfl, rfl, rfl, rfl⟩ (fun _ => rfl) fun _ => rfl

theorem Inv.left (h : Inv NR_CPUS m X rq) (p : Nat) (prev : Bool) :
    Inv NR_CPUS m X (rq.left p prev) := by
  unfold Rq.left switched_from_dl
  split
  · split
    · exact h
    · exact h.setTimer p (fun dl_se => dl_se.dl_timer && dl_se.handler) Entity.handler
  · exact h

/-- Taken off, changed, and put back. -/
theorem Inv.change (h : Inv NR_CPUS m {p} rq) (hon : rq.curr = some p → (rq.task p).on_rq = true)
    {f : Task → Task} (hf : HasParams (f ((rq.takenOff p).task p)))
    (hfon : ∀ t, (f t).on_rq = t.on_rq) (prev b : Bool) :
    Inv NR_CPUS m ∅ (((rq.takenOff p).setTask p f).putBack p prev b) := by
  obtain ⟨hoff, hp, hsame⟩ := h.takenOff
  refine Inv.putBack (hoff.setTask_off hp rfl hf) hp (fun hcurr => ?_) prev b
  have hcurr : rq.curr = some p := hsame.curr.symm.trans hcurr
  rw [setTask_task_self, hfon, hsame.on_rq p]
  exact hon hcurr

theorem boosted_params (top : Option Waiter) {t : Task} (h : HasParams t) :
    HasParams (boosted top t) := by
  intro hpolicy
  have hpolicy : t.dl_policy = true := hpolicy
  refine ⟨?_, by simp [boosted, hpolicy]⟩
  have hown := (h hpolicy).1
  unfold boosted
  simp only
  split
  · exact hown
  · split
    · exact hown
    · exact hown

theorem Inv.setPiTop (h : Inv NR_CPUS m ∅ rq) (p : Nat) (top : Option Waiter) :
    Inv NR_CPUS m {p} (rq.setPiTop p top) :=
  (h.mono (Set.empty_subset {p})).setTask ⟨rfl, rfl, rfl, rfl, rfl⟩ (fun _ => rfl) fun _ => rfl

theorem Inv.setprio (h : Inv NR_CPUS m ∅ rq) (p : Nat) (top : Option Waiter) :
    Inv NR_CPUS m ∅ (rq.rt_mutex_setprio p top) := by
  have hpi := h.setPiTop p top
  refine Inv.left (hpi.change (fun hcurr => ?_) ?_ ?_ _ _) p _
  · rw [Rq.setPiTop, setTask_task_self]
    exact h.curr_on p (Set.notMem_empty p) hcurr
  · exact boosted_params top (hpi.takenOff.1.policy p)
  · exact fun t => rfl

theorem Inv.setparam (h : Inv NR_CPUS m ∅ rq) (p : Nat) (R : Reservation) :
    Inv NR_CPUS m ∅ (rq.__sched_setscheduler p R) :=
  (h.mono (Set.empty_subset {p})).change (h.curr_on p (Set.notMem_empty p))
    (f := __setparam_dl R) (fun _ => ⟨rfl, rfl⟩) (fun _ => rfl) _ _

theorem Inv.setother (h : Inv NR_CPUS m ∅ rq) (p : Nat) (top_prio : Bool) :
    Inv NR_CPUS m ∅ (rq.setOther p top_prio) := by
  have hchange := (h.mono (Set.empty_subset {p})).change (h.curr_on p (Set.notMem_empty p))
    (f := __setscheduler top_prio) (fun hpolicy => by cases hpolicy) (fun _ => rfl)
    (rq.task p).dl_prio false
  exact hchange.left p _

/-! ## A change of affinity -/

/-- Counting again after one of the counted has changed. -/
theorem countP_change {α : Type*} [DecidableEq α] {l : List α} {a : α} (hl : l.Nodup) (ha : a ∈ l)
    {f g : α → Bool} (hfg : ∀ b, b ≠ a → f b = g b) :
    l.countP f + (if g a then 1 else 0) = l.countP g + (if f a then 1 else 0) := by
  have hperm := List.perm_cons_erase ha
  have hrest : (l.erase a).countP f = (l.erase a).countP g := by
    refine List.countP_congr fun b hb => ?_
    rw [hfg b (hl.mem_erase_iff.mp hb).1]
  rw [hperm.countP_eq, hperm.countP_eq, List.countP_cons, List.countP_cons, hrest]
  omega

/-- The runqueue after the affinity of a queued task has changed: another second tree, and
another count of those that may move. -/
def remasked (rq : Rq) (p : Nat) (new_mask : Finset Nat) (pushable : Cached Nat) (n : Nat)
    (bug : Bool) : Rq :=
  { rq with
    pushable := pushable
    dl_nr_migratory := n
    overloaded := decide (0 < n ∧ 1 < rq.dl_nr_total)
    bug := bug
    task := Function.update rq.task p { rq.task p with cpus_allowed := new_mask } }

section Remasked

variable {new_mask : Finset Nat} {pushable : Cached Nat} {n : Nat} {bug : Bool}

theorem remasked_task (q : Nat) :
    (rq.remasked p new_mask pushable n bug).task q =
      if q = p then { rq.task p with cpus_allowed := new_mask } else rq.task q :=
  Function.update_apply ..

theorem remasked_keeps (q : Nat) :
    Keeps (rq.task q) ((rq.remasked p new_mask pushable n bug).task q) ∧
      ((rq.remasked p new_mask pushable n bug).task q).dl = (rq.task q).dl := by
  rw [remasked_task]
  split
  · rename_i hq
    subst hq
    exact ⟨⟨rfl, rfl, rfl, rfl, rfl⟩, rfl⟩
  · exact ⟨.rfl, rfl⟩

theorem remasked_migratable_ne {q : Nat} (hq : q ≠ p) :
    (rq.remasked p new_mask pushable n bug).migratable q = rq.migratable q := by
  unfold migratable
  rw [remasked_task, if_neg hq]

theorem remasked_migratable_self :
    (rq.remasked p new_mask pushable n bug).migratable p = decide (1 < new_mask.card) := by
  unfold migratable
  rw [remasked_task, if_pos rfl]
  rfl

theorem remasked_deadline : (rq.remasked p new_mask pushable n bug).deadline = rq.deadline := by
  funext q
  unfold deadline
  rw [(remasked_keeps q).2]

theorem Counts.remasked (h : Counts rq) (hp : p ∈ rq.queue) (hshape : pushable.Shape)
    (hpush : ∀ q ∈ pushable.root.inorder, q ≠ p ∧ q ∈ rq.pushq ∨ q = p ∧ 1 < new_mask.card)
    (hn : n + (if rq.migratable p then 1 else 0) =
      rq.dl_nr_migratory + (if 1 < new_mask.card then 1 else 0)) :
    Counts (rq.remasked p new_mask pushable n bug) := by
  refine ⟨h.shape, hshape, h.running, h.total, ?_, rfl, ?_⟩
  · have hcount : rq.queue.countP (rq.remasked p new_mask pushable n bug).migratable +
        (if rq.migratable p then 1 else 0) =
        rq.queue.countP rq.migratable +
          (if (rq.remasked p new_mask pushable n bug).migratable p then 1 else 0) :=
      countP_change h.shape.nodup hp fun q hq => remasked_migratable_ne hq
    rw [remasked_migratable_self] at hcount
    simp only [decide_eq_true_eq] at hcount
    have hold := h.migratory
    show n = rq.queue.countP _
    omega
  · intro q hq
    rcases hpush q hq with ⟨hne, hin⟩ | ⟨rfl, hcard⟩
    · rw [remasked_migratable_ne hne]
      exact h.push q hin
    · rw [remasked_migratable_self, decide_eq_true hcard]
      exact ⟨hp, rfl⟩

theorem Order.remasked (h : Order NR_CPUS m rq)
    (hsorted : SortedBy rq.deadline pushable.root.inorder) :
    Order NR_CPUS m (rq.remasked p new_mask pushable n bug) := by
  refine ⟨⟨?_, ?_, ?_⟩, h.cpu_lt, ?_, ?_, ?_⟩
  all_goals rw [remasked_deadline]
  · exact h.curr
  · exact h.next
  · exact h.cpudl
  · exact h.range
  · exact h.sorted
  · exact hsorted

theorem Inv.remasked (h : Inv NR_CPUS m ∅ rq) (hp : p ∈ rq.queue)
    (hbug : bug = false → rq.bug = false) (hshape : pushable.Shape)
    (hpush : ∀ q ∈ pushable.root.inorder, q ≠ p ∧ q ∈ rq.pushq ∨ q = p ∧ 1 < new_mask.card)
    (hcurr : rq.curr = some p → p ∉ pushable.root.inorder)
    (hsorted : rq.wrapped = false → SortedBy rq.deadline pushable.root.inorder)
    (hn : n + (if rq.migratable p then 1 else 0) =
      rq.dl_nr_migratory + (if 1 < new_mask.card then 1 else 0)) :
    Inv NR_CPUS m ∅ (rq.remasked p new_mask pushable n bug) := by
  refine ⟨h.counts.remasked hp hshape hpush hn, fun hw => (h.order hw).remasked (hsorted hw),
    ?_, ?_, ?_, ?_, ?_⟩
  · intro q hq
    obtain ⟨hk, -⟩ := remasked_keeps q
    rw [hk.on_rq, hk.throttled, hk.dl_prio]
    exact h.ready q hq
  · intro q hX hq
    rw [(remasked_keeps q).1.on_rq]
    exact h.curr_on q hX hq
  · intro q hX hq hin
    rcases hpush q hin with ⟨-, hin'⟩ | ⟨rfl, -⟩
    · exact h.curr_push q hX hq hin'
    · exact hcurr hq hin
  · intro q
    obtain ⟨hk, -⟩ := remasked_keeps q
    unfold HasParams
    rw [hk.dl_policy, hk.own, hk.dl_prio]
    exact h.policy q
  · intro hb q hX
    obtain ⟨hk, -⟩ := remasked_keeps q
    rw [hk.on_rq, hk.throttled, hk.dl_prio]
    exact h.lost (hbug hb) q hX

end Remasked

theorem Counts.migratory_pos (h : Counts rq) (hp : p ∈ rq.queue)
    (hmig : rq.migratable p = true) : 0 < rq.dl_nr_migratory := by
  rw [h.migratory, List.countP_pos_iff]
  exact ⟨p, hp, hmig⟩

/-- The task can no longer move. -/
theorem Inv.pinned (h : Inv NR_CPUS m ∅ rq) (hp : p ∈ rq.queue) (hmig : rq.migratable p = true)
    {new_mask : Finset Nat} (hcard : new_mask.card ≤ 1) :
    Inv NR_CPUS m ∅ ((rq.set_cpus_allowed_dl p new_mask).setTask p fun t =>
      { t with cpus_allowed := new_mask }) := by
  have hpos := h.counts.migratory_pos hp hmig
  have hn : rq.dl_nr_migratory - 1 + (if rq.migratable p then 1 else 0) =
      rq.dl_nr_migratory + (if 1 < new_mask.card then 1 else 0) := by
    rw [if_pos hmig, if_neg (by omega)]
    omega
  have hchange : ¬ (¬ rq.on_dl_rq p ∨ rq.migratable p = decide (1 < new_mask.card)) := by
    rw [hmig, decide_eq_false (by omega)]
    exact not_or.mpr ⟨not_not.mpr hp, Bool.noConfusion⟩
  unfold set_cpus_allowed_dl
  rw [if_neg hchange]
  simp only
  rw [if_pos hcard]
  by_cases hcurr : rq.curr = some p
  · have hout := h.curr_push p (Set.notMem_empty p) hcurr
    rw [if_neg (not_not.mpr hcurr)]
    refine h.remasked hp (fun hb => (Bool.or_eq_false_iff.mp hb).1) h.counts.pshape
      (fun q hq => .inl ⟨?_, hq⟩) (fun _ => hout) (fun hw => (h.order hw).psorted) hn
    rintro rfl
    exact hout hq
  · obtain ⟨t, hshape, hinorder, heq⟩ := dequeue_pushable_eq rq h.counts.pshape p
    rw [if_pos hcurr, heq]
    refine h.remasked hp (fun hb => (Bool.or_eq_false_iff.mp hb).1) hshape
      (fun q hq => .inl ?_) (fun hc => absurd hc hcurr) (fun hw => ?_) hn
    · have hq : q ∈ t.root.inorder := hq
      rw [hinorder] at hq
      exact h.counts.pshape.nodup.mem_erase_iff.mp hq
    · show SortedBy rq.deadline t.root.inorder
      rw [hinorder]
      exact (h.order hw).psorted.sublist List.erase_sublist

/-- Now it can. -/
theorem Inv.unpinned (h : Inv NR_CPUS m ∅ rq) (hp : p ∈ rq.queue) (hmig : rq.migratable p = false)
    {new_mask : Finset Nat} (hcard : 1 < new_mask.card) :
    Inv NR_CPUS m ∅ ((rq.set_cpus_allowed_dl p new_mask).setTask p fun t =>
      { t with cpus_allowed := new_mask }) := by
  have hout : p ∉ rq.pushq := by
    intro hin
    rw [(h.counts.push p hin).2] at hmig
    cases hmig
  have hn : rq.dl_nr_migratory + 1 + (if rq.migratable p then 1 else 0) =
      rq.dl_nr_migratory + (if 1 < new_mask.card then 1 else 0) := by
    rw [if_neg (by simp [hmig]), if_pos hcard]
  have hchange : ¬ (¬ rq.on_dl_rq p ∨ rq.migratable p = decide (1 < new_mask.card)) := by
    rw [hmig, decide_eq_true hcard]
    exact not_or.mpr ⟨not_not.mpr hp, Bool.noConfusion⟩
  unfold set_cpus_allowed_dl
  rw [if_neg hchange]
  simp only
  rw [if_neg (by omega)]
  by_cases hcurr : rq.curr = some p
  · rw [if_neg (not_not.mpr hcurr)]
    refine h.remasked hp id h.counts.pshape (fun q hq => .inl ⟨?_, hq⟩) (fun _ => hout)
      (fun hw => (h.order hw).psorted) hn
    rintro rfl
    exact hout hq
  · rw [if_pos hcurr]
    refine h.remasked hp (fun hb => (Bool.or_eq_false_iff.mp hb).1)
      (h.counts.pshape.insert _ hout) (fun q hq => ?_) (fun hc => absurd hc hcurr)
      (fun hw => ((h.order hw).enqueue_pushable h.counts hp).psorted) hn
    rcases List.mem_cons.mp ((rq.pushable.perm_insert _ p).mem_iff.mp hq) with hqp | hin
    · exact .inr ⟨hqp, hcard⟩
    · refine .inl ⟨?_, hin⟩
      rintro rfl
      exact hout hin

theorem Inv.affinity (h : Inv NR_CPUS m ∅ rq) (p : Nat) (new_mask : Finset Nat) :
    Inv NR_CPUS m ∅ (rq.do_set_cpus_allowed p new_mask) := by
  unfold do_set_cpus_allowed
  simp only
  by_cases hp : p ∈ rq.queue
  case neg =>
    have hno : ¬ rq.on_dl_rq p := hp
    have hsame : rq.set_cpus_allowed_dl p new_mask = rq := if_pos (.inl hno)
    rw [hsame, ite_self]
    exact h.setTask ⟨rfl, rfl, rfl, rfl, rfl⟩ (fun hq => absurd hq hp) fun _ => rfl
  rw [if_pos (h.ready p hp).2.2]
  by_cases hsame : rq.migratable p = decide (1 < new_mask.card)
  · rw [show rq.set_cpus_allowed_dl p new_mask = rq from if_pos (.inr hsame)]
    exact h.setTask ⟨rfl, rfl, rfl, rfl, rfl⟩ (fun _ => hsame.symm) fun _ => rfl
  · by_cases hcard : 1 < new_mask.card
    · rw [decide_eq_true hcard] at hsame
      exact h.unpinned hp (Bool.eq_false_iff.mpr hsame) hcard
    · rw [decide_eq_false hcard] at hsame
      exact h.pinned hp (by simpa using hsame) (by omega)

/-! ## Another task runs -/

/-- The task that ran is put back, and among the pushable ones if it may move. -/
theorem Inv.stopPrev (h : Inv NR_CPUS m ∅ rq) (sleeps : Bool) {prev : Nat}
    (hcurr : rq.curr = some prev) :
    Inv NR_CPUS m {prev} (rq.stopPrev sleeps) ∧
      (∀ q, (q = prev → sleeps = false) →
        ((rq.stopPrev sleeps).task q).on_rq = (rq.task q).on_rq) ∧
      ((rq.stopPrev sleeps).bug = false → ((rq.stopPrev sleeps).task prev).on_rq = true →
        ((rq.stopPrev sleeps).task prev).dl_prio = true →
        prev ∈ (rq.stopPrev sleeps).queue ∨
          ((rq.stopPrev sleeps).task prev).dl.dl_throttled = true) := by
  unfold Rq.stopPrev
  rw [hcurr]
  simp only
  cases sleeps with
  | true =>
      obtain ⟨hInv, hp, hc, hoff, hon, -⟩ := h.deactivate prev
      rw [insert_empty_eq] at hInv
      have hput := put_prev_of_off (hc.trans hcurr) hp
      simp only [if_true, hput, ite_self]
      refine ⟨hInv, fun q hq => hon q fun hqp => ?_, fun _ hon' => ?_⟩
      · cases hq hqp
      · rw [hoff] at hon'
        cases hon'
  | false =>
      simp only [Bool.false_eq_true, if_false]
      split
      · have hupdate := h.update_curr
        have hsame := update_curr_same h
        have hpush := hupdate.curr_push prev (Set.notMem_empty prev) (hsame.curr.trans hcurr)
        have hput := h.put_prev hpush
        rw [insert_empty_eq] at hput
        obtain ⟨htask, hqueue, -, hbug⟩ := put_prev_frame rq prev
        rw [htask, hqueue]
        exact ⟨hput, fun q _ => hsame.on_rq q,
          fun hb => hupdate.lost (hbug hb) prev (Set.notMem_empty prev)⟩
      · exact ⟨h.mono (Set.empty_subset _), fun q _ => rfl,
          fun hb => h.lost hb prev (Set.notMem_empty prev)⟩

/-- After the task that ran has been put back, everything is in order but that it still
counts as the running one. -/
theorem Inv.afterStop (h : Inv NR_CPUS m ∅ rq) (sleeps : Bool) {other : Option Nat}
    (hother : ∀ q, other = some q → (rq.task q).on_rq = true ∧
      (rq.curr = some q → sleeps = false)) :
    ∃ X, Inv NR_CPUS m X (rq.stopPrev sleeps) ∧
      (∀ q, other = some q → ((rq.stopPrev sleeps).task q).on_rq = true) ∧
      ∀ q ∈ X, (rq.stopPrev sleeps).bug = false → ((rq.stopPrev sleeps).task q).on_rq = true →
        ((rq.stopPrev sleeps).task q).dl_prio = true →
        q ∈ (rq.stopPrev sleeps).queue ∨
          ((rq.stopPrev sleeps).task q).dl.dl_throttled = true := by
  cases hcurr : rq.curr with
  | none =>
      have heq : rq.stopPrev sleeps = rq := by
        unfold Rq.stopPrev
        rw [hcurr]
      rw [heq]
      exact ⟨∅, h, fun q hq => (hother q hq).1, fun q hq => absurd hq (Set.notMem_empty q)⟩
  | some prev =>
      obtain ⟨hInv, hon, hlost⟩ := h.stopPrev sleeps hcurr
      refine ⟨{prev}, hInv, fun q hq => ?_, ?_⟩
      · obtain ⟨hq', hsleeps⟩ := hother q hq
        rw [hon q fun hqp => hsleeps (by rw [hcurr, hqp])]
        exact hq'
      · rintro q rfl
        exact hlost

theorem Inv.exists_stopPrev (h : Inv NR_CPUS m ∅ rq) (sleeps : Bool) :
    ∃ X, Inv NR_CPUS m X (rq.stopPrev sleeps) := by
  have hnone : ∀ q, none = some q → (rq.task q).on_rq = true ∧
      (rq.curr = some q → sleeps = false) := nofun
  obtain ⟨X, hInv, -⟩ := h.afterStop sleeps hnone
  exact ⟨X, hInv⟩

/-- A task of another class is not in the tree, nor offered to other CPUs. -/
theorem Inv.not_mem_of_prio (h : Inv NR_CPUS m X rq) (hprio : (rq.task p).dl_prio = false) :
    p ∉ rq.queue := by
  intro hp
  rw [(h.ready p hp).2.2] at hprio
  cases hprio

theorem stopPrev_prio (h : Inv NR_CPUS m ∅ rq) (sleeps : Bool) (q : Nat) :
    ((rq.stopPrev sleeps).task q).dl_prio = (rq.task q).dl_prio := by
  unfold Rq.stopPrev
  split
  · rfl
  · rename_i prev hcurr
    simp only
    have hput : ∀ {rq' : Rq} {Y : Set Nat}, Inv NR_CPUS m Y rq' →
        ((rq'.put_prev_task_dl prev).task q).dl_prio = (rq'.task q).dl_prio := by
      intro rq' Y hInv
      rw [(put_prev_frame rq' prev).1]
      exact (update_curr_same hInv).dl_prio q
    cases sleeps with
    | true =>
        obtain ⟨hInv, -, -, -, -, hprio⟩ := h.deactivate prev
        simp only [if_true]
        split
        · exact (hput hInv).trans (hprio q)
        · exact hprio q
    | false =>
        simp only [Bool.false_eq_true, if_false]
        split
        · exact hput h
        · rfl

theorem Inv.schedule (h : Inv NR_CPUS m ∅ rq) (sleeps stop : Bool) {other : Option Nat}
    (hother : ∀ q, other = some q → (rq.task q).on_rq = true ∧ (rq.task q).dl_prio = false ∧
      (rq.curr = some q → sleeps = false)) :
    Inv NR_CPUS m ∅ (rq.schedule sleeps stop other) := by
  obtain ⟨X, hInv, hon, hX⟩ := h.afterStop sleeps fun q hq =>
    ⟨(hother q hq).1, (hother q hq).2.2⟩
  have hcurr : ∀ q, other = some q → ((rq.stopPrev sleeps).task q).on_rq = true ∧
      q ∉ (rq.stopPrev sleeps).pushq := by
    intro q hq
    refine ⟨hon q hq, hInv.not_mem_pushq (hInv.not_mem_of_prio ?_)⟩
    rw [stopPrev_prio h]
    exact (hother q hq).2.1
  unfold Rq.schedule
  simp only
  split
  · exact (hInv.switch true hcurr).restrict fun q hq _ => ⟨hcurr q, hX q hq⟩
  · obtain ⟨hqueue, heq⟩ |
        ⟨next, rest, rq', hqueue, heq, hInv', hqueue', hpush, hsame, hdl, hbug⟩ := hInv.pick_next
    · rw [heq]
      exact (hInv.switch false hcurr).restrict fun q hq _ => ⟨hcurr q, hX q hq⟩
    · have hnext : (rq'.task next).on_rq = true :=
        (hInv'.ready next (by rw [hqueue', hqueue]; exact List.mem_cons_self)).1
      have hcurr' : ∀ q, some next = some q → (rq'.task q).on_rq = true ∧ q ∉ rq'.pushq := by
        rintro q ⟨⟩
        exact ⟨hnext, hpush⟩
      rw [heq]
      refine (hInv'.switch false hcurr').restrict fun q hq _ => ⟨hcurr' q, ?_⟩
      show rq'.bug = false → (rq'.task q).on_rq = true → (rq'.task q).dl_prio = true →
        q ∈ rq'.queue ∨ (rq'.task q).dl.dl_throttled = true
      rw [hbug, hsame.on_rq q, hsame.dl_prio q, hdl q, hqueue']
      exact hX q hq

/-! ## Every run -/

/-- The rest of the budget is given up. -/
theorem Inv.giveUp (h : Inv NR_CPUS m X rq) (p : Nat) :
    Inv NR_CPUS m X (rq.setDlSe p fun dl_se => { dl_se with dl_new := true, runtime := 0 }) :=
  h.setTask ⟨rfl, rfl, rfl, rfl, rfl⟩ (fun _ => rfl) fun _ => rfl

theorem Inv.yield (h : Inv NR_CPUS m X rq) : Inv NR_CPUS m X rq.yield_task_dl := by
  unfold yield_task_dl
  split
  · exact h
  · simp only
    split
    · exact (h.giveUp _).update_curr
    · exact h.update_curr

theorem Inv.leave (h : Inv NR_CPUS m ∅ rq) (hcurr : rq.curr ≠ some p) :
    Inv NR_CPUS m ∅ (rq.deactivate p) := by
  obtain ⟨hInv, -, hc, hoff, -, -⟩ := h.deactivate p
  refine hInv.close fun _ => ⟨fun hcurr' => absurd (hc.symm.trans hcurr') hcurr,
    fun _ hon => ?_⟩
  rw [hoff] at hon
  cases hon

/-- A task that is not awake is not in the trees. -/
theorem Inv.not_mem_queue (h : Inv NR_CPUS m X rq) (hon : (rq.task p).on_rq = false) :
    p ∉ rq.queue := by
  intro hp
  rw [(h.ready p hp).1] at hon
  cases hon

/-- Another CPU's entry in the heap. -/
theorem Inv.remote (h : Inv NR_CPUS m X rq) {call : SetCall} (hcpu : call.cpu ≠ rq.cpu)
    (hfits : call.Fits NR_CPUS) :
    Inv NR_CPUS (setLast m call.cpu call.dl call.is_valid) X
      { rq with cpudl := cpudl_set rq.cpudl call.cpu call.dl call.is_valid } := by
  refine ⟨⟨h.counts.shape, h.counts.pshape, h.counts.running, h.counts.total, h.counts.migratory,
      h.counts.overloaded, h.counts.push⟩, fun hw => ?_, h.ready, h.curr_on, h.curr_push,
    h.policy, h.lost⟩
  have horder := h.order hw
  refine ⟨⟨horder.curr, horder.next, ?_⟩, horder.cpu_lt, horder.range, horder.sorted,
    horder.psorted⟩
  show Represents NR_CPUS (cpudl_set rq.cpudl call.cpu call.dl call.is_valid)
    (Function.update (Function.update m call.cpu _) rq.cpu _)
  rw [Function.update_comm hcpu]
  cases hvalid : call.is_valid with
  | true => exact set_valid call.cpu horder.cpudl (hfits.2 hvalid)
  | false => exact set_invalid call.dl horder.cpudl hfits.1

/-- A child in the place of a task that is not in use. -/
theorem Inv.fork (h : Inv NR_CPUS m ∅ rq) (hon : (rq.task p).on_rq = false) (parent : Task) :
    Inv NR_CPUS m ∅ (rq.setTask p fun _ => sched_fork parent) := by
  have hset := (h.mono (Set.empty_subset {p})).setTask_off (h.not_mem_queue hon) rfl
    (f := fun _ => sched_fork parent) fun hpolicy => by cases hpolicy
  rw [← insert_empty_eq] at hset
  refine hset.close fun _ => ⟨fun hcurr => ?_, fun _ hon' => ?_⟩
  · rw [h.curr_on p (Set.notMem_empty p) hcurr] at hon
    cases hon
  · rw [setTask_task_self] at hon'
    cases hon'

/-- What the other CPUs have in the heap after an event. -/
def others (m : Nat → Option Nat) : Event → Nat → Option Nat
  | .remote call => setLast m call.cpu call.dl call.is_valid
  | _ => m

theorem fork_accepted {child : Nat} {rq' : Rq}
    (hstep : rq.react NR_CPUS (.fork child) = some rq') :
    ∃ parent, rq.curr = some parent ∧ (rq.task child).on_rq = false ∧
      (rq.task child).dl.active = false ∧
      rq' = rq.setTask child fun _ => sched_fork (rq.task parent) := by
  simp only [Rq.react] at hstep
  split at hstep
  · rename_i parent hcurr
    obtain ⟨⟨hon, hactive⟩, rfl⟩ := Run.accepted hstep
    exact ⟨parent, hcurr, hon, hactive, rfl⟩
  · cases hstep

theorem Inv.react (h : Inv NR_CPUS m ∅ rq) {e : Event} {rq' : Rq}
    (hstep : rq.react NR_CPUS e = some rq') (hbug : rq'.bug = false) :
    Inv NR_CPUS (others m e) ∅ rq' := by
  cases e with
  | clock clock clock_task now =>
      obtain rfl := Option.some.inj hstep
      exact h.aside clock clock_task now _ _ id
  | wake q =>
      obtain ⟨hon, rfl⟩ := Run.accepted hstep
      exact h.activate (h.not_mem_queue hon)
  | schedule sleeps stop other =>
      cases other with
      | none =>
          obtain ⟨-, rfl⟩ := Run.accepted hstep
          exact h.schedule sleeps false fun q hq => by cases hq
      | some q =>
          obtain ⟨hother, rfl⟩ := Run.accepted hstep
          refine h.schedule sleeps stop ?_
          rintro _ ⟨⟩
          exact hother
  | tick =>
      obtain rfl := Option.some.inj hstep
      exact h.update_curr
  | yield =>
      simp only [Rq.react] at hstep
      split at hstep
      · obtain ⟨-, rfl⟩ := Run.accepted hstep
        exact h.yield
      · cases hstep
  | resched =>
      obtain rfl := Option.some.inj hstep
      exact h.resched
  | expire q =>
      obtain ⟨-, rfl⟩ := Run.accepted hstep
      exact h.setTimer q (fun _ => false) fun _ => true
  | timer q =>
      obtain ⟨-, rfl⟩ := Run.accepted hstep
      exact h.timer hbug
  | setprio q top =>
      obtain ⟨-, rfl⟩ := Run.permitted hstep
      exact h.setprio q top
  | setparam q R =>
      obtain ⟨-, rfl⟩ := Run.permitted hstep
      exact h.setparam q R
  | setother q top_prio =>
      obtain ⟨-, rfl⟩ := Run.permitted hstep
      exact h.setother q top_prio
  | affinity q new_mask =>
      obtain rfl := Option.some.inj hstep
      exact h.affinity q new_mask
  | unpushable q =>
      obtain rfl := Option.some.inj hstep
      exact (h.dequeue_pushable q).1
  | leave q =>
      obtain ⟨⟨-, hcurr⟩, rfl⟩ := Run.accepted hstep
      exact h.leave hcurr
  | join q t how =>
      obtain ⟨⟨hon, hparams⟩, rfl⟩ := Run.accepted hstep
      exact h.arrive (h.not_mem_queue hon) (fun hpolicy => hparams hpolicy) how
  | fork child =>
      obtain ⟨parent, -, hon, -, rfl⟩ := fork_accepted hstep
      exact h.fork hon _
  | dead q =>
      obtain ⟨-, rfl⟩ := Run.accepted hstep
      exact h.setTimer q (fun _ => false) Entity.handler
  | remote call =>
      obtain ⟨⟨hcpu, hfits⟩, rfl⟩ := Run.accepted hstep
      exact h.remote hcpu hfits

end Rq

end KernelLab.Deadline
