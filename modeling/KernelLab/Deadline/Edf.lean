/-
# `KernelLab.Deadline.Edf` — the earliest deadline runs first

Of the ready tasks of this class that are not throttled, one whose deadline is the earliest
is to run; if it does not, `need_resched` is to be set, so that `schedule` will pick it.

Three things do not fit in:

    a change of the parameters or of the priority of a task that waits: `prio_changed_dl`
      looks only at the running task, and `switched_to_dl` only at tasks of this policy
    the running task leaves this class, or comes into it by another policy:
      `switched_from_dl` looks at nothing, and `switched_to_dl` not at the running task
    a task that is pulled from another CPU other than by `schedule` itself: `pull_dl_task`
      does not look at the running one

So the runs in question are those that change a sleeping task, or the running one without
taking it out of this class.  After a task has been pulled, it takes a `schedule`; and a task
of `stop_sched_class` comes before all of this class.

## What is proved

In each of these runs, at every point at which no task has been pulled since the last
`schedule` and none of `stop_sched_class` runs, the running task is an earliest one, or
`need_resched` is set (`earliest_runs`).
-/
import KernelLab.Deadline.Throttle

namespace KernelLab.Deadline

open KernelLab.Serial KernelLab.RbTree

namespace Rq

set_option linter.style.nameCheck false

/-- An earliest task runs, if there is any in the tree. -/
structure Edf (rq : Rq) : Prop where
  running : ∀ c, rq.curr = some c → (rq.task c).dl_prio = true → c ∈ rq.queue
  first : ∀ q ∈ rq.queue, ∃ c, rq.curr = some c ∧ c ∈ rq.queue ∧ rq.deadline c ≤ rq.deadline q

/-- Or there will be a look at it, or there is nothing to be said. -/
def EdfOrResched (rq : Rq) : Prop :=
  rq.wrapped = false → rq.need_resched = false → rq.curr_stop = false → Edf rq

variable {NR_CPUS : Nat} {m : Nat → Option Nat} {X : Set Nat} {rq : Rq} {p : Nat}

/-! ## What leaves it as it is -/

theorem Edf.keep (h : Edf rq) {rq' : Rq} (hcurr : rq'.curr = rq.curr)
    (hsub : ∀ q ∈ rq'.queue, q ∈ rq.queue)
    (hkeep : ∀ c, rq.curr = some c → c ∈ rq.queue → c ∈ rq'.queue)
    (hprio : ∀ c, rq.curr = some c → (rq'.task c).dl_prio = (rq.task c).dl_prio)
    (hdl : ∀ q ∈ rq.queue, rq'.deadline q = rq.deadline q) : Edf rq' := by
  refine ⟨fun c hc hdlp => ?_, fun q hq => ?_⟩
  · rw [hcurr] at hc
    rw [hprio c hc] at hdlp
    exact hkeep c hc (h.running c hc hdlp)
  · obtain ⟨c, hc, hcq, hle⟩ := h.first q (hsub q hq)
    refine ⟨c, hcurr.trans hc, hkeep c hc hcq, ?_⟩
    rw [hdl c hcq, hdl q (hsub q hq)]
    exact hle

theorem EdfOrResched.resched (rq : Rq) : EdfOrResched rq.resched := fun _ h _ => by cases h

theorem EdfOrResched.or_resched (h : EdfOrResched rq) {rq' : Rq}
    (heq : rq' = rq ∨ rq' = rq.resched) : EdfOrResched rq' := by
  rcases heq with rfl | rfl
  · exact h
  · exact .resched rq

/-- A change of a task that is neither in the tree nor running. -/
theorem EdfOrResched.setTask_off (h : EdfOrResched rq) (hp : p ∉ rq.queue)
    (hcurr : rq.curr ≠ some p) (f : Task → Task) : EdfOrResched (rq.setTask p f) := by
  intro hw hr hs
  refine (h hw hr hs).keep rfl (fun q hq => hq) (fun c _ hc => hc) (fun c hc => ?_) fun q hq => ?_
  · rw [setTask_task_ne]
    rintro rfl
    exact hcurr hc
  · unfold deadline
    rw [setTask_task_ne]
    rintro rfl
    exact hp hq

/-- A change of a task that leaves its priority and its deadline. -/
theorem EdfOrResched.setTask (h : EdfOrResched rq) {f : Task → Task}
    (hprio : (f (rq.task p)).dl_prio = (rq.task p).dl_prio)
    (hdl : (f (rq.task p)).dl.deadline = (rq.task p).dl.deadline) :
    EdfOrResched (rq.setTask p f) := by
  intro hw hr hs
  refine (h hw hr hs).keep rfl (fun q hq => hq) (fun c _ hc => hc) (fun c _ => ?_) fun q _ => ?_
  · by_cases hc : c = p
    · subst hc
      rw [setTask_task_self]
      exact hprio
    · rw [setTask_task_ne hc]
  · unfold deadline
    by_cases hq : q = p
    · subst hq
      rw [setTask_task_self]
      exact hdl
    · rw [setTask_task_ne hq]

/-! ## Charging the running task -/

theorem Order.le_of_not_earlier (h : Order NR_CPUS m rq) {c q : Nat} (hc : c ∈ rq.queue)
    (hq : q ∈ rq.queue) (hno : ¬ rq.Earlier q c) : rq.deadline c ≤ rq.deadline q := by
  by_contra hlt
  exact hno ((before_iff_lt (h.range q hq).2 (h.range c hc).2).mpr (not_le.mp hlt))

theorem Order.head_le (h : Order NR_CPUS m rq) {c : Nat} (hc : rq.queue.head? = some c) {q : Nat}
    (hq : q ∈ rq.queue) : rq.deadline c ≤ rq.deadline q := by
  obtain ⟨rest, hqueue⟩ : ∃ rest, rq.queue = c :: rest := by
    cases hcons : rq.queue with
    | nil =>
        rw [hcons] at hc
        cases hc
    | cons x rest =>
        rw [hcons] at hc
        obtain rfl := Option.some.inj hc
        exact ⟨rest, rfl⟩
  have hsorted := h.sorted
  rw [hqueue] at hsorted hq
  rcases List.mem_cons.mp hq with rfl | hin
  · exact le_refl _
  · exact List.rel_of_pairwise_cons hsorted hin

/-- The first in the tree runs. -/
theorem Edf.of_head (h : Order NR_CPUS m rq) {c : Nat} (hc : rq.queue.head? = some c)
    (hcurr : rq.curr = some c) : Edf rq := by
  have hmem := List.mem_of_mem_head? hc
  refine ⟨fun c' hc' _ => ?_, fun q hq => ⟨c, hcurr, hmem, h.head_le hc hq⟩⟩
  obtain rfl := Option.some.inj (hcurr.symm.trans hc')
  exact hmem

theorem EdfOrResched.charged (h : EdfOrResched rq) (p : Nat) : EdfOrResched (rq.charged p) := by
  obtain ⟨sum, runtime, heq⟩ := charged_eq rq p
  rw [heq]
  exact h.setTask rfl rfl

theorem EdfOrResched.update_curr (h : EdfOrResched rq) (hInv : Inv NR_CPUS m X rq) :
    EdfOrResched rq.update_curr_dl := by
  have hInv' := hInv.update_curr
  have hsame := update_curr_same hInv
  rcases update_curr_cases rq with ⟨heq, -⟩ | ⟨p, hcurr, -, hp, heq⟩
  · rw [heq]
    exact h
  · rw [heq] at hInv' hsame ⊢
    split
    · rename_i hexceeds
      rw [if_pos hexceeds] at hInv' hsame
      rcases exceeded_cases (hInv.charged p).counts p with ⟨hex, -⟩ | ⟨-, ⟨hex, hleft⟩ | hex⟩
      · rw [hex]
        exact .resched _
      · intro hw _ _
        refine Edf.of_head (hInv'.order hw) ?_ (hsame.curr.trans hcurr)
        rw [← hleft, hInv'.counts.shape.first]
        rfl
      · rw [hex]
        exact .resched _
    · exact h.charged p

/-- A task that does not run leaves the tree. -/
theorem EdfOrResched.dequeue_task (h : EdfOrResched rq) (hInv : Inv NR_CPUS m X rq)
    (hcurr : rq.curr ≠ some p) : EdfOrResched (rq.dequeue_task_dl p) := by
  have hu := h.update_curr hInv
  have hcounts := hInv.update_curr.counts
  have hframe := hcounts.dequeue_frame p
  have hqueue : (rq.dequeue_task_dl p).queue = rq.update_curr_dl.queue.erase p :=
    hcounts.queue_dequeue p
  have hc : (rq.dequeue_task_dl p).curr = rq.update_curr_dl.curr := hframe.curr
  have ht : (rq.dequeue_task_dl p).task = rq.update_curr_dl.task := hframe.task
  intro hw hr hs
  refine (hu (hframe.wrapped ▸ hw) (hframe.need_resched ▸ hr) (hframe.stop ▸ hs)).keep hc
    (fun q hq => ?_)
    (fun c hcc hcq => ?_) (fun c _ => by rw [ht]) fun q _ => by unfold deadline; rw [ht]
  · rw [hqueue] at hq
    exact List.mem_of_mem_erase hq
  · rw [hqueue]
    refine hcounts.shape.nodup.mem_erase_iff.mpr ⟨?_, hcq⟩
    rintro rfl
    exact hcurr ((update_curr_same hInv).curr.symm.trans hcc)

/-! ## A task comes into the tree -/

/-- After a look at the running task: it is to be replaced, or it is of this class and not
later than `p`. -/
def Looked (rq rq' : Rq) (p : Nat) : Prop :=
  rq' = rq.resched ∨
    rq' = rq ∧ ∃ c, rq.curr = some c ∧ (rq.task c).dl_prio = true ∧ ¬ rq.Earlier p c

theorem check_preempt_curr_dl_looked {c : Nat} (hcurr : rq.curr = some c)
    (hprio : (rq.task c).dl_prio = true) (p : Nat) :
    Looked rq (rq.check_preempt_curr_dl c p) p := by
  by_cases hearlier : rq.Earlier p c
  · exact .inl (if_pos hearlier)
  · rcases check_preempt_curr_dl_cases rq c p with heq | heq
    · exact .inr ⟨heq, c, hcurr, hprio, hearlier⟩
    · exact .inl heq

theorem check_preempt_curr_looked (hstop : rq.curr_stop = false) (p : Nat) :
    Looked rq (rq.check_preempt_curr p) p := by
  unfold check_preempt_curr
  split
  · rename_i c hcurr
    rw [if_neg (by rw [hstop]; exact Bool.false_ne_true)]
    split
    · rename_i hprio
      exact check_preempt_curr_dl_looked hcurr hprio p
    · exact .inl rfl
  · exact .inl rfl

theorem timerPreempt_looked (hpolicy : ∀ c, HasParams (rq.task c)) (p : Nat) :
    Looked rq (rq.timerPreempt p) p := by
  unfold timerPreempt
  split
  · rename_i c hcurr
    split
    · rename_i hpol
      exact check_preempt_curr_dl_looked hcurr (hpolicy c hpol).2 p
    · exact .inl rfl
  · exact .inl rfl

/-- A task is put in the tree, and the running one is looked at. -/
theorem EdfOrResched.enqueue_looked (h : EdfOrResched rq) {b : Bool} {rq' : Rq}
    (hInv' : Inv NR_CPUS m ∅ rq') (hcurr : rq.curr ≠ some p)
    (hlooked : Looked (rq.enqueue_task_dl p b) rq' p) : EdfOrResched rq' := by
  rcases hlooked with rfl | ⟨rfl, c, hc, hprio, hno⟩
  · exact .resched _
  · intro hw hr hs
    have hsame := enqueue_task_same rq p b
    have hold := h (hsame.unwrapped hw) (hsame.resched hr) (hsame.stop ▸ hs)
    rw [hsame.curr] at hc
    rw [hsame.dl_prio] at hprio
    have hcq := hold.running c hc hprio
    cases hthr : (rq.task p).dl.dl_throttled with
    | true =>
        rw [enqueue_task_throttled b hthr]
        exact hold
    | false =>
        have hqueued := enqueue_task_queued b hthr
        have hcp : c ≠ p := by
          rintro rfl
          exact hcurr hc
        have hmem := hqueued.mem
        have hle := (hInv'.order hw).le_of_not_earlier ((hmem c).mpr (.inr hcq))
          ((hmem p).mpr (.inl rfl)) hno
        have hdl : ∀ q, q ≠ p → (rq.enqueue_task_dl p b).deadline q = rq.deadline q := by
          intro q hq
          unfold deadline
          rw [hqueued.task_ne hq]
        refine ⟨fun c' hc' _ => ?_, fun q hq => ?_⟩
        · rw [hsame.curr] at hc'
          obtain rfl := Option.some.inj (hc.symm.trans hc')
          exact (hmem c).mpr (.inr hcq)
        · refine ⟨c, hsame.curr.trans hc, (hmem c).mpr (.inr hcq), ?_⟩
          by_cases hqp : q = p
          · subst hqp
            exact hle
          · obtain ⟨c', hc', -, hle'⟩ := hold.first q (((hmem q).mp hq).resolve_left hqp)
            obtain rfl := Option.some.inj (hc.symm.trans hc')
            rw [hdl c hcp, hdl q hqp]
            exact hle'

theorem activate_stop (rq : Rq) (p : Nat) : (rq.activate p).curr_stop = rq.curr_stop := by
  have hset : (rq.activate_task p).curr_stop = rq.curr_stop := by
    unfold activate_task
    simp only
    split
    · exact (enqueue_task_same _ p false).stop
    · rfl
  rcases activate_cases rq p with heq | heq
  · rw [heq, hset]
  · rw [heq]
    exact hset

theorem EdfOrResched.activate (h : EdfOrResched rq) (hp : p ∉ rq.queue)
    (hcurr : rq.curr ≠ some p) (hInv' : Inv NR_CPUS m ∅ (rq.activate p)) :
    EdfOrResched (rq.activate p) := by
  intro hw hr hs
  have hset := h.setTask_off hp hcurr fun t => { t with on_rq := true }
  generalize hrq₁ : (rq.setTask p fun t => { t with on_rq := true }) = rq₁ at hset
  have hcurr₁ : rq₁.curr ≠ some p := by
    rw [← hrq₁]
    exact hcurr
  by_cases hprio : (rq₁.task p).dl_prio = true
  · have htask : rq.activate_task p = rq₁.enqueue_task_dl p false := by
      rw [← hrq₁] at hprio ⊢
      exact if_pos hprio
    have hprio' : ((rq.activate_task p).task p).dl_prio = true := by
      rw [htask, (enqueue_task_same rq₁ p false).dl_prio]
      exact hprio
    have heq : rq.activate p = (rq₁.enqueue_task_dl p false).check_preempt_curr p := by
      rw [← htask]
      exact if_pos hprio'
    have hstop : (rq₁.enqueue_task_dl p false).curr_stop = false := by
      rw [(enqueue_task_same rq₁ p false).stop, ← hrq₁]
      exact (activate_stop rq p).symm.trans hs
    rw [heq] at hInv' hw hr hs ⊢
    exact hset.enqueue_looked hInv' hcurr₁ (check_preempt_curr_looked hstop p) hw hr hs
  · have htask : rq.activate_task p = rq₁ := by
      rw [← hrq₁] at hprio ⊢
      exact if_neg hprio
    have heq : rq.activate p = rq₁ := by
      unfold Rq.activate
      simp only [htask]
      exact if_neg hprio
    rw [heq] at hw hr hs ⊢
    exact hset hw hr hs

theorem Inv.curr_ne (h : Inv NR_CPUS m ∅ rq) (hon : (rq.task p).on_rq = false) :
    rq.curr ≠ some p := by
  intro hcurr
  rw [h.curr_on p (Set.notMem_empty p) hcurr] at hon
  cases hon

theorem EdfOrResched.timer (h : EdfOrResched rq)
    (hInv' : Inv NR_CPUS m ∅ (rq.dl_task_timer p)) (hbug : (rq.dl_task_timer p).bug = false) :
    EdfOrResched (rq.dl_task_timer p) := by
  have hun : EdfOrResched (rq.unthrottled p) := by
    rw [unthrottled_eq]
    exact h.setTask rfl rfl
  rcases timer_cases rq p with ⟨-, heq⟩ | ⟨hprio, -, ⟨hon, heq⟩ | ⟨-, heq⟩⟩
  · rw [heq]
    exact h.setTask rfl rfl
  · rw [heq] at hInv' hbug ⊢
    have hcases := timerPreempt_cases ((rq.unthrottled p).enqueue_task_dl p true) p
    have hpolicy : ∀ c, HasParams (((rq.unthrottled p).enqueue_task_dl p true).task c) := by
      intro c
      rw [← or_resched_task hcases]
      exact hInv'.policy c
    by_cases hcurr : rq.curr = some p
    · -- the running task is throttled only until there has been a look
      intro hw hr hs
      have hsame : Same (rq.unthrottled p) (timerPreempt _ p) :=
        (enqueue_task_same (rq.unthrottled p) p true).trans (or_resched_same hcases)
      have hold := h (hsame.unwrapped hw) (hsame.resched hr) (hsame.stop.symm.trans hs)
      have hp : p ∈ (rq.unthrottled p).queue := hold.running p hcurr hprio
      have htwice := enqueue_task_twice (by rw [unthrottled_eq, setDlSe_task_self]) hp true
      rw [or_resched_bug hcases, htwice] at hbug
      cases hbug
    · exact hun.enqueue_looked hInv' hcurr (timerPreempt_looked hpolicy p)
  · rw [heq]
    exact hun

/-! ## Another task runs -/

/-- Whatever ran before, the earliest is picked. -/
theorem EdfOrResched.schedule {sleeps stop : Bool} {other : Option Nat}
    (h : Inv NR_CPUS m ∅ rq) (hInv' : Inv NR_CPUS m ∅ (rq.schedule sleeps stop other))
    (hother : ∀ q, other = some q → (rq.task q).dl_prio = false) :
    EdfOrResched (rq.schedule sleeps stop other) := by
  intro hw _ hs
  obtain ⟨X, hInv⟩ := h.exists_stopPrev sleeps
  have hstop : stop = false := by
    rw [← Bool.not_eq_true]
    rintro rfl
    cases hs
  subst hstop
  rcases hInv.pick_next with ⟨hqueue, heq⟩ | ⟨next, rest, rq', hqueue, heq, -, hq', -⟩
  · have hsched : rq.schedule sleeps false other =
        { rq.stopPrev sleeps with curr := other, curr_stop := false, need_resched := false } := by
      unfold Rq.schedule
      simp only [Bool.false_eq_true, if_false, heq]
    rw [hsched]
    refine ⟨fun c hc hprio => ?_, fun q hq => ?_⟩
    · have hsame := stopPrev_prio h sleeps c
      rw [hother c hc] at hsame
      rw [show ((rq.stopPrev sleeps).task c).dl_prio = true from hprio] at hsame
      cases hsame
    · have hq : q ∈ (rq.stopPrev sleeps).queue := hq
      rw [hqueue] at hq
      cases hq
  · have hsched : rq.schedule sleeps false other =
        { rq' with curr := some next, curr_stop := false, need_resched := false } := by
      unfold Rq.schedule
      simp only [Bool.false_eq_true, if_false, heq]
    rw [hsched] at hInv' hw ⊢
    refine Edf.of_head (hInv'.order hw) ?_ rfl
    show rq'.queue.head? = some next
    rw [hq', hqueue]
    rfl

/-! ## A change of a sleeping task -/

theorem EdfOrResched.left (h : EdfOrResched rq) (p : Nat) (prev : Bool) :
    EdfOrResched (rq.left p prev) := by
  unfold Rq.left switched_from_dl
  split
  · split
    · exact h
    · exact h.setTask rfl rfl
  · exact h

theorem EdfOrResched.change_asleep (h : EdfOrResched rq) (hInv : Inv NR_CPUS m {p} rq)
    (hon : (rq.task p).on_rq = false) (hcurr : rq.curr ≠ some p) {f : Task → Task}
    (hf : ∀ t, (f t).on_rq = t.on_rq) (prev b : Bool) :
    EdfOrResched (((rq.takenOff p).setTask p f).putBack p prev b) := by
  have hoff : rq.takenOff p = rq := by
    rw [hInv.takenOff_eq p, hon]
    simp
  have hset := h.setTask_off (hInv.not_mem_queue hon) hcurr f
  have hon' : ((rq.setTask p f).task p).on_rq = false := by
    rw [setTask_task_self, hf]
    exact hon
  have hcurr' : (rq.setTask p f).curr ≠ some p := hcurr
  rw [hoff]
  unfold Rq.putBack
  split
  · simp only [hon', Bool.false_eq_true, if_false]
    split
    · exact hset.or_resched (prio_changed_cases _ p)
    · exact hset.or_resched (switched_to_cases _ p)
  · exact hset

/-! ## A change of the running task -/

theorem enqueue_task_flags (rq : Rq) (p : Nat) (b : Bool) :
    SameFlags (rq.task p).dl ((rq.enqueue_task_dl p b).task p).dl := by
  cases hthr : (rq.task p).dl.dl_throttled with
  | true =>
      rw [enqueue_task_throttled b hthr]
      exact .rfl
  | false =>
      rw [(enqueue_task_queued b hthr).task_self]
      exact rq.refreshed_flags p b

/-- A task that is in the tree and runs is throttled only with `need_resched` set. -/
theorem Inv.update_curr_throttled (h : Inv NR_CPUS m X rq) (hp : p ∈ rq.queue)
    (hr : rq.update_curr_dl.need_resched = false) :
    (rq.update_curr_dl.task p).dl.dl_throttled = false := by
  obtain ⟨-, hthr, -⟩ := h.ready p hp
  rcases update_curr_cases rq with ⟨heq, -⟩ | ⟨q, -, -, -, heq⟩
  · rw [heq]
    exact hthr
  · obtain ⟨runtime, hdl⟩ := charged_dl rq q p
    have hcharged : ((rq.charged q).task p).dl.dl_throttled = false := by
      rw [hdl]
      exact hthr
    rw [heq] at hr ⊢
    split
    · rename_i hexceeds
      rw [if_pos hexceeds] at hr
      by_cases hqp : p = q
      · subst hqp
        have hframe := (h.charged p).counts.dequeue_frame p
        have henq := (enqueue_task_flags ((rq.charged p).__dequeue_task_dl p) p true).throttled
        rw [hframe.task, hcharged] at henq
        rcases exceeded_cases (h.charged p).counts p with ⟨hex, -⟩ | ⟨-, ⟨hex, -⟩ | hex⟩
        · rw [hex] at hr
          cases hr
        · rw [hex]
          exact henq
        · rw [hex] at hr
          cases hr
      · rw [exceeded_task_ne (h.charged q).counts hqp]
        exact hcharged
    · exact hcharged

theorem prio_changed_looked (hcurr : rq.curr = some p) :
    rq.prio_changed_dl p = rq.resched ∨
      rq.prio_changed_dl p = rq ∧ ¬ before rq.earliest_curr (rq.deadline p) := by
  unfold prio_changed_dl
  rw [if_pos (.inr hcurr)]
  split
  · exact .inl rfl
  · rename_i hno
    exact .inr ⟨rfl, fun hb => hno ⟨hb, hcurr⟩⟩

/-- After the running task has been put back, there was a look at whether it is still first. -/
theorem putBack_looked (h : Inv NR_CPUS m {p} rq) {b : Bool}
    (hcurr : (rq.putBack p true b).curr = some p) (hprio : (rq.task p).dl_prio = true)
    (hr : (rq.putBack p true b).need_resched = false) :
    ¬ before (rq.putBack p true b).earliest_curr ((rq.putBack p true b).deadline p) := by
  have hput := putBack_same h true b
  unfold Rq.putBack at hcurr hr hput ⊢
  rw [if_pos hprio] at hcurr hr hput ⊢
  simp only [if_true] at hcurr hr hput ⊢
  generalize hrq₁ : (if rq.curr = some p then rq.set_curr_task_dl p else rq) = rq₁
    at hcurr hr hput ⊢
  generalize (if (rq₁.task p).on_rq then rq₁.enqueue_task_dl p b else rq₁) = rq₂
    at hcurr hr hput ⊢
  have hcurr₂ : rq₂.curr = some p := by
    rw [← (or_resched_same (prio_changed_cases rq₂ p)).curr]
    exact hcurr
  rcases prio_changed_looked hcurr₂ with heq | ⟨heq, hno⟩
  · rw [heq] at hr
    cases hr
  · rw [heq]
    exact hno

theorem EdfOrResched.change_running (h : EdfOrResched rq) (hInv : Inv NR_CPUS m {p} rq)
    (hcurr : rq.curr = some p) (hon : (rq.task p).on_rq = true)
    (hprio : (rq.task p).dl_prio = true) {f : Task → Task} (hfon : ∀ t, (f t).on_rq = t.on_rq)
    (hparams : HasParams (f ((rq.takenOff p).task p)))
    (hfprio : (f ((rq.takenOff p).task p)).dl_prio = true)
    (hfthr : ((rq.takenOff p).task p).dl.dl_throttled = false →
      (f ((rq.takenOff p).task p)).dl.dl_throttled = false) {b : Bool}
    (hInv' : Inv NR_CPUS m ∅ (((rq.takenOff p).setTask p f).putBack p true b)) :
    EdfOrResched (((rq.takenOff p).setTask p f).putBack p true b) := by
  intro hw hr hs
  obtain ⟨hoff, hp, hsame⟩ := hInv.takenOff
  have hset := hoff.setTask_off hp rfl hparams
  have hput := putBack_same hset true b
  have hrun := (h (hsame.unwrapped (hput.unwrapped hw))
    (hsame.resched (hput.resched hr)) ((hput.stop.trans hsame.stop).symm.trans hs)).running p
      hcurr hprio
  -- the task is in the tree, and stays there
  have htask : ((rq.takenOff p).setTask p f).task p = f ((rq.takenOff p).task p) :=
    setTask_task_self ..
  have hthr : (((rq.takenOff p).setTask p f).task p).dl.dl_throttled = false := by
    rw [htask]
    refine hfthr ?_
    have hr' := hput.resched hr
    have hr' : (rq.takenOff p).need_resched = false := hr'
    have hframe := hInv.update_curr.counts.dequeue_frame p
    rw [hInv.takenOff_eq p, if_pos ⟨hprio, hon⟩] at hr' ⊢
    have ht : (rq.dequeue_task_dl p).task = rq.update_curr_dl.task := hframe.task
    rw [ht]
    exact hInv.update_curr_throttled hrun (hframe.need_resched ▸ hr')
  have hon' : (((rq.takenOff p).setTask p f).task p).on_rq = true := by
    rw [htask, hfon, hsame.on_rq]
    exact hon
  have hprio' : (((rq.takenOff p).setTask p f).task p).dl_prio = true := by
    rw [htask]
    exact hfprio
  have hmem := ((putBack_queued hset hprio' hon' hthr true b).1 p).mpr (.inl rfl)
  -- and nothing in the tree is earlier
  have hcurr' : (((rq.takenOff p).setTask p f).putBack p true b).curr = some p :=
    hput.curr.trans (hsame.curr.trans hcurr)
  obtain ⟨head, hhead⟩ : ∃ head,
      (((rq.takenOff p).setTask p f).putBack p true b).queue.head? = some head :=
    Option.isSome_iff_exists.mp (List.isSome_head?.mpr (List.ne_nil_of_mem hmem))
  have horder := hInv'.order hw
  have hle : (((rq.takenOff p).setTask p f).putBack p true b).deadline p ≤
      (((rq.takenOff p).setTask p f).putBack p true b).deadline head := by
    have hno := putBack_looked hset hcurr' hprio' hr
    rw [horder.curr, hhead, Option.map_some, Option.getD_some] at hno
    by_contra hlt
    have hin := List.mem_of_mem_head? hhead
    exact hno ((before_iff_lt (horder.range head hin).2 (horder.range p hmem).2).mpr
      (not_le.mp hlt))
  refine ⟨fun c hc _ => ?_, fun q hq => ⟨p, hcurr', hmem, hle.trans (horder.head_le hhead hq)⟩⟩
  obtain rfl := Option.some.inj (hcurr'.symm.trans hc)
  exact hmem

theorem takenOff_outside (hprio : (rq.task p).dl_prio = false) : rq.takenOff p = rq := by
  unfold Rq.takenOff
  rw [hprio]
  rfl

/-- The running task comes into this class. -/
theorem EdfOrResched.change_entering (h : EdfOrResched rq) (hInv : Inv NR_CPUS m {p} rq)
    (hcurr : rq.curr = some p) (hon : (rq.task p).on_rq = true)
    (hprio : (rq.task p).dl_prio = false) {f : Task → Task} (hfon : ∀ t, (f t).on_rq = t.on_rq)
    (hparams : HasParams (f (rq.task p))) (hfprio : (f (rq.task p)).dl_prio = true)
    (hfthr : (f (rq.task p)).dl.dl_throttled = false) (prev b : Bool) :
    EdfOrResched (((rq.takenOff p).setTask p f).putBack p prev b) := by
  have hoff := takenOff_outside hprio
  have hp := hInv.not_mem_of_prio hprio
  have hset := hInv.setTask_off hp rfl hparams
  have hput := putBack_same hset prev b
  have hself : (rq.setTask p f).task p = f (rq.task p) := setTask_task_self ..
  obtain ⟨hmem, -⟩ := putBack_queued hset (hself ▸ hfprio) (by rw [hself, hfon]; exact hon)
    (hself ▸ hfthr) prev b
  rw [hoff]
  intro hw hr hs
  have hold := h (hput.unwrapped hw) (hput.resched hr) (hput.stop.symm.trans hs)
  have hcurr' : ((rq.setTask p f).putBack p prev b).curr = some p := hput.curr.trans hcurr
  -- as long as a task of another class ran, there was none of this
  have hnone : ∀ q, q ∉ rq.queue := by
    intro q hq
    obtain ⟨c, hc, hcq, -⟩ := hold.first q hq
    obtain rfl := Option.some.inj (hcurr.symm.trans hc)
    exact hp hcq
  have hself' := (hmem p).mpr (.inl rfl)
  refine ⟨fun c hc _ => ?_, fun q hq => ⟨p, hcurr', hself', ?_⟩⟩
  · obtain rfl := Option.some.inj (hcurr'.symm.trans hc)
    exact hself'
  · rw [((hmem q).mp hq).resolve_right (hnone q)]

/-- Or it stays in another. -/
theorem EdfOrResched.change_outside (h : EdfOrResched rq)
    (hprio : (rq.task p).dl_prio = false) {f : Task → Task}
    (hfprio : (f (rq.task p)).dl_prio = false)
    (hdl : (f (rq.task p)).dl.deadline = (rq.task p).dl.deadline) (prev b : Bool) :
    EdfOrResched (((rq.takenOff p).setTask p f).putBack p prev b) := by
  have hoff := takenOff_outside hprio
  have hput : (rq.setTask p f).putBack p prev b = rq.setTask p f := by
    unfold Rq.putBack
    rw [setTask_task_self, hfprio]
    rfl
  rw [hoff, hput]
  exact h.setTask (hfprio.trans hprio.symm) hdl

/-! ## Every run -/

/-- The event changes the priority or the parameters of a sleeping task, or of the running
one, or of none.  The running task does not leave this class, and does not come into it by
getting another policy. -/
def InPlace (rq : Rq) : Event → Prop
  | .setprio p top => (rq.task p).on_rq = false ∨
      rq.curr = some p ∧ ((rq.task p).dl_prio = true →
        ((rq.task p).dl_policy || top.any Waiter.dl_prio) = true)
  | .setparam p _ => (rq.task p).on_rq = false ∨ rq.curr = some p
  | .setother p top_prio => (rq.task p).on_rq = false ∨
      rq.curr = some p ∧ (rq.task p).dl_prio = top_prio
  | _ => True

instance decInPlace (rq : Rq) (e : Event) : Decidable (rq.InPlace e) :=
  match e with
  | .setprio _ _ => inferInstanceAs (Decidable (_ ∨ _))
  | .setparam _ _ => inferInstanceAs (Decidable (_ ∨ _))
  | .setother _ _ => inferInstanceAs (Decidable (_ ∨ _))
  | .clock _ _ _ | .wake _ | .schedule _ _ _ | .tick | .yield | .resched | .expire _ | .timer _
  | .affinity _ _ | .unpushable _ | .leave _ | .join _ _ _ | .fork _ | .dead _ | .remote _ =>
      .isTrue trivial

theorem EdfOrResched.yield (h : EdfOrResched rq) (hInv : Inv NR_CPUS m X rq) :
    EdfOrResched rq.yield_task_dl := by
  unfold yield_task_dl
  split
  · exact h
  · rename_i p _
    simp only
    split
    · have hgive : EdfOrResched
          (rq.setDlSe p fun dl_se => { dl_se with dl_new := true, runtime := 0 }) :=
        h.setTask rfl rfl
      exact hgive.update_curr (hInv.giveUp p)
    · exact h.update_curr hInv

theorem EdfOrResched.affinity (h : EdfOrResched rq) (p : Nat) (new_mask : Finset Nat) :
    EdfOrResched (rq.do_set_cpus_allowed p new_mask) := by
  obtain ⟨htask, hqueue, hcurr, hs, hr, hw⟩ := remask_frame rq p new_mask
  have hmask : EdfOrResched (rq.remask p new_mask) := by
    intro hw' hr' hs'
    refine (h (hw ▸ hw') (hr ▸ hr') (hs ▸ hs')).keep hcurr (fun q hq => hqueue ▸ hq)
      (fun c _ hc => ?_) (fun c _ => by rw [htask]) fun q _ => ?_
    · rw [hqueue]
      exact hc
    · unfold deadline
      rw [htask]
  rw [affinity_eq]
  exact hmask.setTask rfl rfl

theorem boosted_throttled {top : Option Waiter} {t : Task}
    (h : t.dl.dl_throttled = false) : (boosted top t).dl.dl_throttled = false := by
  unfold boosted
  simp only
  split
  · rfl
  · split
    · exact h
    · exact h

theorem boosted_deadline (top : Option Waiter) (t : Task) :
    (boosted top t).dl.deadline = t.dl.deadline := by
  unfold boosted
  simp only
  split
  · rfl
  · split
    · rfl
    · rfl

/-- A task comes into this class by a boost only, when it is of another policy. -/
theorem boosts_of_entering {top : Option Waiter} {t : Task} (ht : HasParams t)
    (hprio : t.dl_prio = false) (h : (boosted top t).dl_prio = true) : boosts top t = true := by
  have hpolicy : t.dl_policy = false := by
    rw [← Bool.not_eq_true]
    intro hpolicy
    rw [(ht hpolicy).2] at hprio
    cases hprio
  have h : (t.dl_policy || top.any Waiter.dl_prio) = true := h
  rw [hpolicy, Bool.false_or] at h
  cases top with
  | none => cases h
  | some w =>
      unfold boosts
      rw [hpolicy]
      exact h

theorem EdfOrResched.setprio (h : EdfOrResched rq) (hInv : Inv NR_CPUS m ∅ rq)
    {top : Option Waiter} (hplace : rq.InPlace (.setprio p top))
    (hInv' : Inv NR_CPUS m ∅ (rq.rt_mutex_setprio p top)) :
    EdfOrResched (rq.rt_mutex_setprio p top) := by
  have hpi := hInv.setPiTop p top
  have hset : EdfOrResched (rq.setPiTop p top) := h.setTask rfl rfl
  have hself : (rq.setPiTop p top).task p =
      { rq.task p with pi_top := top.bind Waiter.params } := setTask_task_self ..
  have hon : ((rq.setPiTop p top).task p).on_rq = (rq.task p).on_rq := by rw [hself]
  have hprio : ((rq.setPiTop p top).task p).dl_prio = (rq.task p).dl_prio := by rw [hself]
  rcases hplace with hoff | ⟨hcurr, hstays⟩
  · exact EdfOrResched.left (hset.change_asleep hpi (hon.trans hoff) (hInv.curr_ne hoff)
      (f := boosted top) (fun t => rfl) _ _) p _
  · have hon' := hon.trans (hInv.curr_on p (Set.notMem_empty p) hcurr)
    have hparams := boosted_params top (hpi.policy p)
    cases hprio' : (rq.task p).dl_prio with
    | false =>
        refine EdfOrResched.left ?_ p _
        cases hboosted : (boosted top ((rq.setPiTop p top).task p)).dl_prio with
        | true =>
            have hboosts := boosts_of_entering (hpi.policy p) (hprio.trans hprio') hboosted
            refine hset.change_entering hpi hcurr hon' (hprio.trans hprio') (f := boosted top)
              (fun t => rfl) hparams hboosted ?_ _ _
            rw [(boosted_of_boosts hboosts).2]
        | false =>
            exact hset.change_outside (hprio.trans hprio') hboosted
              (boosted_deadline top _) _ _
    | true =>
        obtain ⟨hoff, hpoff, hsame⟩ := hpi.takenOff
        have hfprio : (boosted top (((rq.setPiTop p top).takenOff p).task p)).dl_prio = true := by
          show ((((rq.setPiTop p top).takenOff p).task p).dl_policy ||
            top.any Waiter.dl_prio) = true
          rw [hsame.dl_policy p, hself]
          exact hstays hprio'
        have hparams := boosted_params top (hoff.policy p)
        have hfinal : (((((rq.setPiTop p top).takenOff p).setTask p (boosted top)).putBack p
            (rq.task p).dl_prio (boosts top (rq.beforeBoost p top))).task p).dl_prio = true := by
          rw [(putBack_same (hoff.setTask_off hpoff rfl hparams) _ _).dl_prio p,
            setTask_task_self]
          exact hfprio
        have hleft : rq.rt_mutex_setprio p top = _ := left_of_prio hfinal _
        rw [hleft, hprio'] at hInv' ⊢
        exact hset.change_running hpi hcurr hon' (hprio.trans hprio') (f := boosted top)
          (fun t => rfl) hparams hfprio boosted_throttled hInv'

theorem EdfOrResched.setparam (h : EdfOrResched rq) (hInv : Inv NR_CPUS m ∅ rq) {R : Reservation}
    (hplace : rq.InPlace (.setparam p R))
    (hInv' : Inv NR_CPUS m ∅ (rq.__sched_setscheduler p R)) :
    EdfOrResched (rq.__sched_setscheduler p R) := by
  have hone := hInv.mono (Set.empty_subset {p})
  rcases hplace with hoff | hcurr
  · exact h.change_asleep hone hoff (hInv.curr_ne hoff) (f := __setparam_dl R) (fun t => rfl) _ _
  · have hon := hInv.curr_on p (Set.notMem_empty p) hcurr
    unfold __sched_setscheduler at hInv' ⊢
    cases hprio : (rq.task p).dl_prio with
    | false =>
        exact h.change_entering hone hcurr hon hprio (f := __setparam_dl R) (fun t => rfl)
          (fun _ => ⟨rfl, rfl⟩) rfl rfl _ _
    | true =>
        rw [hprio] at hInv'
        exact h.change_running hone hcurr hon hprio (f := __setparam_dl R) (fun t => rfl)
          (fun _ => ⟨rfl, rfl⟩) rfl (fun _ => rfl) hInv'

theorem EdfOrResched.setother (h : EdfOrResched rq) (hInv : Inv NR_CPUS m ∅ rq)
    {top_prio : Bool} (hplace : rq.InPlace (.setother p top_prio))
    (hInv' : Inv NR_CPUS m ∅ (rq.setOther p top_prio)) :
    EdfOrResched (rq.setOther p top_prio) := by
  have hone := hInv.mono (Set.empty_subset {p})
  rcases hplace with hoff | ⟨hcurr, hstays⟩
  · exact EdfOrResched.left (h.change_asleep hone hoff (hInv.curr_ne hoff)
      (f := __setscheduler top_prio) (fun t => rfl) _ _) p _
  · have hon := hInv.curr_on p (Set.notMem_empty p) hcurr
    have hparams : ∀ t, HasParams (__setscheduler top_prio t) := fun t hpolicy => by cases hpolicy
    cases top_prio with
    | false =>
        exact EdfOrResched.left (h.change_outside hstays (f := __setscheduler false) rfl rfl
          _ _) p _
    | true =>
        obtain ⟨hoff, hpoff, -⟩ := hone.takenOff
        have hfinal : ((((rq.takenOff p).setTask p (__setscheduler true)).putBack p
            (rq.task p).dl_prio false).task p).dl_prio = true := by
          rw [(putBack_same (hoff.setTask_off hpoff rfl (hparams _)) _ _).dl_prio p,
            setTask_task_self]
          rfl
        have heq : rq.setOther p true = _ := left_of_prio hfinal _
        rw [heq, hstays] at hInv' ⊢
        exact h.change_running hone hcurr hon hstays (f := __setscheduler true) (fun t => rfl)
          (hparams _) rfl id hInv'

/-- A task that does not run leaves. -/
theorem EdfOrResched.deactivate (h : EdfOrResched rq) (hInv : Inv NR_CPUS m X rq)
    (hcurr : rq.curr ≠ some p) : EdfOrResched (rq.deactivate p) := by
  unfold Rq.deactivate
  simp only
  split
  · exact (h.dequeue_task hInv hcurr).setTask rfl rfl
  · exact h.setTask rfl rfl

/-- A task has been pulled since the last `schedule`; `pulled` says so of before the event. -/
def pulledAfter (pulled : Bool) : Event → Bool
  | .schedule _ _ _ => false
  | .join _ _ .pulled => true
  | _ => pulled

theorem EdfOrResched.react {pulled : Bool} (h : pulled = false → EdfOrResched rq)
    (hInv : Inv NR_CPUS m ∅ rq) {e : Event} {rq' : Rq} (hstep : rq.react NR_CPUS e = some rq')
    (hInv' : Inv NR_CPUS (others m e) ∅ rq') (hbug : rq'.bug = false) (hplace : rq.InPlace e)
    (hpulled : pulledAfter pulled e = false) : EdfOrResched rq' := by
  cases e with
  | clock clock clock_task now =>
      obtain rfl := Option.some.inj hstep
      exact fun hw hr hs => ⟨(h hpulled hw hr hs).running, (h hpulled hw hr hs).first⟩
  | wake q =>
      obtain ⟨hon, rfl⟩ := Run.accepted hstep
      exact (h hpulled).activate (hInv.not_mem_queue hon) (hInv.curr_ne hon) hInv'
  | schedule sleeps stop other =>
      cases other with
      | none =>
          obtain ⟨-, rfl⟩ := Run.accepted hstep
          exact .schedule hInv hInv' fun q hq => by cases hq
      | some q =>
          obtain ⟨⟨-, hprio, -⟩, rfl⟩ := Run.accepted hstep
          refine .schedule hInv hInv' ?_
          rintro _ ⟨⟩
          exact hprio
  | tick =>
      obtain rfl := Option.some.inj hstep
      exact (h hpulled).update_curr hInv
  | yield =>
      simp only [Rq.react] at hstep
      split at hstep
      · obtain ⟨-, rfl⟩ := Run.accepted hstep
        exact (h hpulled).yield hInv
      · cases hstep
  | resched =>
      obtain rfl := Option.some.inj hstep
      exact .resched rq
  | expire q =>
      obtain ⟨-, rfl⟩ := Run.accepted hstep
      exact (h hpulled).setTask rfl rfl
  | timer q =>
      obtain ⟨-, rfl⟩ := Run.accepted hstep
      exact (h hpulled).timer hInv' hbug
  | setprio q top =>
      obtain ⟨-, rfl⟩ := Run.permitted hstep
      exact (h hpulled).setprio hInv hplace hInv'
  | setparam q R =>
      obtain ⟨-, rfl⟩ := Run.permitted hstep
      exact (h hpulled).setparam hInv hplace hInv'
  | setother q top_prio =>
      obtain ⟨-, rfl⟩ := Run.permitted hstep
      exact (h hpulled).setother hInv hplace hInv'
  | affinity q new_mask =>
      obtain rfl := Option.some.inj hstep
      exact (h hpulled).affinity q new_mask
  | unpushable q =>
      obtain rfl := Option.some.inj hstep
      obtain ⟨-, hframe, hqueue, -⟩ := hInv.dequeue_pushable q
      intro hw hr hs
      refine (h hpulled (hframe.wrapped ▸ hw) (hframe.need_resched ▸ hr)
        (hframe.stop ▸ hs)).keep hframe.curr (fun q hq => hqueue ▸ hq) (fun c _ hc => ?_)
          (fun c _ => by rw [hframe.task]) fun q _ => ?_
      · rw [hqueue]
        exact hc
      · unfold deadline
        rw [hframe.task]
  | leave q =>
      obtain ⟨⟨-, hcurr⟩, rfl⟩ := Run.accepted hstep
      exact (h hpulled).deactivate hInv hcurr
  | join q t how =>
      obtain ⟨⟨hon, -⟩, rfl⟩ := Run.accepted hstep
      have hp := hInv.not_mem_queue hon
      have hcurr := hInv.curr_ne hon
      cases how with
      | moved => exact ((h hpulled).setTask_off hp hcurr fun _ => t).activate hp hcurr hInv'
      | pushed => exact .resched _
      | pulled => cases hpulled
  | fork child =>
      obtain ⟨parent, -, hon, -, rfl⟩ := fork_accepted hstep
      exact (h hpulled).setTask_off (hInv.not_mem_queue hon) (hInv.curr_ne hon) _
  | dead q =>
      obtain ⟨-, rfl⟩ := Run.accepted hstep
      exact (h hpulled).setTask rfl rfl
  | remote call =>
      obtain ⟨-, rfl⟩ := Run.accepted hstep
      exact fun hw hr hs => ⟨(h hpulled hw hr hs).running, (h hpulled hw hr hs).first⟩

end Rq

end KernelLab.Deadline
