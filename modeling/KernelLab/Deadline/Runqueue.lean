/-
# `KernelLab.Deadline.Runqueue` — the deadline class of one CPU

The tasks that are ready and have budget left are in a tree by deadline, `rb_root`; those
of them that may run elsewhere and are not running are in a second one,
`pushable_dl_tasks_root`.  Beside the trees stand their leftmost nodes, the counts, and
the two earliest deadlines; the earliest is also entered in the heap of all CPUs.

    enqueue_task_dl        unless throttled: new parameters, both trees, counts
    dequeue_task_dl        charge the running task, both trees, counts
    update_curr_dl         charge the running task; if its budget is used up, take it off
                           the trees and start its timer, or replenish it at once
    dl_task_timer          the timer: no longer throttled, replenished, back in the trees
    yield_task_dl          the rest of the budget is given up, for a new instance

and, of the scheduler proper, the calls of these on a wakeup, a sleep, a move to another
CPU, a fork, a change of priority or of parameters, as far as the deadline class goes.
Everything happens under the lock of the runqueue, so a run is a sequence of these.

`bug` is raised where a `BUG_ON` fires, and nothing happens after that.  `wrapped` is not in
the source: it is raised when a task is queued with a deadline of 0 or from `2 ^ 63` on,
where "earlier" stops being an order and 0 stops meaning "none".

A task is a number, its address.  A priority is of this class or it is not.
-/
import KernelLab.Lib.RbTree.Cached
import KernelLab.Deadline.CpuDl
import KernelLab.Deadline.Entity

namespace KernelLab.Deadline

open KernelLab.CInt KernelLab.Serial KernelLab.RbTree

set_option linter.style.nameCheck false

/-- Of `struct task_struct`.  `dl_policy` and `dl_prio` say whether its policy and its
priority, own or inherited, are of this class; `pi_top` is the reservation of
`pi_top_task`, if there is such a task and its `normal_prio` is of this class. -/
structure Task where
  dl : Entity
  dl_policy : Bool
  dl_prio : Bool
  pi_top : Params
  on_rq : Bool
  cpus_allowed : Finset Nat
  exec_start : Nat
  sum_exec_runtime : Nat

namespace Task

def nr_cpus_allowed (p : Task) : Nat := p.cpus_allowed.card

/-- The parameters that count: those of the top waiter while boosted. -/
def pi_se (p : Task) : Params :=
  match p.pi_top, p.dl.dl_boosted with
  | some R, true => some R
  | _, _ => p.dl.own

end Task

/-- The top waiter for a task: whether its priority, own or inherited, is of this class, its
reservation if its `normal_prio` is, and in any case the deadline in its entity. -/
structure Waiter where
  dl_prio : Bool
  params : Params
  deadline : Nat
  prio_of_params : params.isSome = true → dl_prio = true

/-- Of `struct rq` and its `struct dl_rq`.  The heap `cpudl` of the root domain is shared
with the other CPUs.  Beside the two clocks of the runqueue stands `now`, what `hrtimer`
reads; `curr_stop` says that the running task is of `stop_sched_class`, which is above
this one. -/
structure Rq where
  cpu : Nat
  ktime : Ktime
  clock : Nat
  clock_task : Nat
  now : Nat
  curr : Option Nat
  curr_stop : Bool
  need_resched : Bool
  nr_running : Int
  rb : Cached Nat
  dl_nr_running : Nat
  earliest_curr : Nat
  earliest_next : Nat
  dl_nr_migratory : Nat
  dl_nr_total : Nat
  overloaded : Bool
  pushable : Cached Nat
  cpudl : Cpudl
  task : Nat → Task
  bug : Bool
  wrapped : Bool

namespace Rq

def queue (rq : Rq) : List Nat := rq.rb.root.inorder

def pushq (rq : Rq) : List Nat := rq.pushable.root.inorder

def deadline (rq : Rq) (p : Nat) : Nat := (rq.task p).dl.deadline

/-- `!RB_EMPTY_NODE(&dl_se->rb_node)` -/
def on_dl_rq (rq : Rq) (p : Nat) : Prop := p ∈ rq.queue

instance (rq : Rq) (p : Nat) : Decidable (rq.on_dl_rq p) :=
  inferInstanceAs (Decidable (p ∈ rq.queue))

def Earlier (rq : Rq) (a b : Nat) : Prop := dl_entity_preempt (rq.task a).dl (rq.task b).dl

instance (rq : Rq) : DecidableRel rq.Earlier :=
  fun a b => inferInstanceAs (Decidable (dl_entity_preempt (rq.task a).dl (rq.task b).dl))

def migratable (rq : Rq) (p : Nat) : Bool := decide (1 < (rq.task p).nr_cpus_allowed)

def setTask (rq : Rq) (p : Nat) (f : Task → Task) : Rq :=
  { rq with task := Function.update rq.task p (f (rq.task p)) }

def setDlSe (rq : Rq) (p : Nat) (f : Entity → Entity) : Rq :=
  rq.setTask p fun t => { t with dl := f t.dl }

def resched (rq : Rq) : Rq := { rq with need_resched := true }

def BUG_ON (rq : Rq) (c : Prop) [Decidable c] : Rq := { rq with bug := rq.bug || decide c }

/-! ## The second tree -/

def enqueue_pushable_dl_task (rq : Rq) (p : Nat) : Rq :=
  let rq := rq.BUG_ON (p ∈ rq.pushq)
  { rq with pushable := rq.pushable.insert rq.Earlier p }

def dequeue_pushable_dl_task (rq : Rq) (p : Nat) : Rq :=
  if p ∈ rq.pushq then { rq with pushable := rq.pushable.erase p } else rq

/-! ## Counts and earliest deadlines -/

def update_dl_migration (rq : Rq) : Rq :=
  { rq with overloaded := decide (0 < rq.dl_nr_migratory ∧ 1 < rq.dl_nr_total) }

def inc_dl_migration (rq : Rq) (p : Nat) : Rq :=
  update_dl_migration
    { rq with
      dl_nr_total := rq.dl_nr_total + 1
      dl_nr_migratory :=
        if rq.migratable p then rq.dl_nr_migratory + 1 else rq.dl_nr_migratory }

def dec_dl_migration (rq : Rq) (p : Nat) : Rq :=
  update_dl_migration
    { rq with
      dl_nr_total := rq.dl_nr_total - 1
      dl_nr_migratory :=
        if rq.migratable p then rq.dl_nr_migratory - 1 else rq.dl_nr_migratory }

def pick_dl_task (rq : Rq) (p cpu : Nat) : Bool :=
  decide (rq.curr ≠ some p) && decide (cpu ∈ (rq.task p).cpus_allowed) && rq.migratable p

/-- `next_node = rb_next(next_node)` until one will do, at most `fuel` times. -/
def nextEarliest (rq : Rq) (cpu : Nat) : Nat → Option Nat → Option Nat
  | 0, _ => none
  | fuel + 1, next_node =>
      match next_node.bind rq.rb.next with
      | none => none
      | some p => if rq.pick_dl_task p cpu then some p else nextEarliest rq cpu fuel (some p)

def pick_next_earliest_dl_task (rq : Rq) (cpu : Nat) : Option Nat :=
  nextEarliest rq cpu rq.rb.root.size rq.rb.leftmost

def next_deadline (rq : Rq) : Nat :=
  match pick_next_earliest_dl_task rq rq.cpu with
  | some p => if (rq.task p).dl_prio then rq.deadline p else 0
  | none => 0

def inc_dl_deadline (rq : Rq) (deadline : Nat) : Rq :=
  if rq.earliest_curr = 0 ∨ before deadline rq.earliest_curr then
    { rq with
      earliest_next := rq.earliest_curr
      earliest_curr := deadline
      cpudl := cpudl_set rq.cpudl rq.cpu deadline true }
  else if rq.earliest_next = 0 ∨ before deadline rq.earliest_next then
    { rq with earliest_next := rq.next_deadline }
  else rq

def dec_dl_deadline (rq : Rq) : Rq :=
  if rq.dl_nr_running = 0 then
    { rq with
      earliest_curr := 0
      earliest_next := 0
      cpudl := cpudl_set rq.cpudl rq.cpu 0 false }
  else
    match rq.rb.leftmost with
    | some entry =>
        { rq with
          earliest_curr := rq.deadline entry
          earliest_next := rq.next_deadline
          cpudl := cpudl_set rq.cpudl rq.cpu (rq.deadline entry) true }
    | none => { rq with bug := true }

def inc_dl_tasks (rq : Rq) (p : Nat) : Rq :=
  inc_dl_migration
    (inc_dl_deadline { rq with dl_nr_running := rq.dl_nr_running + 1 } (rq.deadline p)) p

def dec_dl_tasks (rq : Rq) (p : Nat) : Rq :=
  dec_dl_migration (dec_dl_deadline { rq with dl_nr_running := rq.dl_nr_running - 1 }) p

/-! ## The first tree -/

/-- A deadline by which tasks can be ordered. -/
def InRange (d : Nat) : Prop := 0 < d ∧ d < 2 ^ 63

instance (d : Nat) : Decidable (InRange d) := inferInstanceAs (Decidable (0 < d ∧ d < 2 ^ 63))

def __enqueue_dl_entity (rq : Rq) (p : Nat) : Rq :=
  let rq := rq.BUG_ON (rq.on_dl_rq p)
  inc_dl_tasks
    { rq with
      wrapped := rq.wrapped || decide (¬ InRange (rq.deadline p))
      rb := rq.rb.insert rq.Earlier p } p

def __dequeue_dl_entity (rq : Rq) (p : Nat) : Rq :=
  if rq.on_dl_rq p then dec_dl_tasks { rq with rb := rq.rb.erase p } p else rq

/-- The second `BUG_ON` is that of `replenish_dl_entity`. -/
def enqueue_dl_entity (rq : Rq) (p : Nat) (pi_se : Params) (ENQUEUE_REPLENISH : Bool) : Rq :=
  let rq := rq.BUG_ON (rq.on_dl_rq p)
  let rq := rq.BUG_ON ((!(rq.task p).dl.dl_new && ENQUEUE_REPLENISH) = true ∧
    pi_se.dl_runtime = 0)
  let rq := rq.setDlSe p (refresh rq.clock pi_se ENQUEUE_REPLENISH)
  rq.__enqueue_dl_entity p

/-! ## The methods of the class -/

def enqueue_task_dl (rq : Rq) (p : Nat) (ENQUEUE_REPLENISH : Bool) : Rq :=
  if (rq.task p).dl.dl_throttled then rq
  else
    let rq := rq.enqueue_dl_entity p (rq.task p).pi_se ENQUEUE_REPLENISH
    let rq := if rq.curr ≠ some p ∧ rq.migratable p then rq.enqueue_pushable_dl_task p else rq
    { rq with nr_running := rq.nr_running + 1 }

def __dequeue_task_dl (rq : Rq) (p : Nat) : Rq :=
  (rq.__dequeue_dl_entity p).dequeue_pushable_dl_task p

/-- `rq_clock_task(rq) - curr->se.exec_start`, or 0 if that is negative. -/
def delta_exec (rq : Rq) (p : Nat) : Nat :=
  (toLLong ((rq.clock_task : Int) - (rq.task p).exec_start)).toNat

/-- The time since the last time, taken off the budget of the running task. -/
def charge (rq : Rq) (p : Nat) : Rq :=
  rq.setTask p fun t =>
    { t with
      sum_exec_runtime := t.sum_exec_runtime + rq.delta_exec p
      exec_start := rq.clock_task
      dl := { t.dl with runtime := toLLong (t.dl.runtime - rq.delta_exec p) } }

/-- `start_dl_timer`, by the clocks as they are. -/
def starts (rq : Rq) (dl_se : Entity) : Bool :=
  start_dl_timer rq.ktime rq.clock rq.now dl_se dl_se.dl_boosted

/-- The running task has used up its budget, or is past its deadline. -/
def exceeded (rq : Rq) (p : Nat) : Rq :=
  let rq := rq.__dequeue_task_dl p
  let rq :=
    if rq.starts (rq.task p).dl then
      rq.setDlSe p fun dl_se => { dl_se with dl_throttled := true, dl_timer := true }
    else rq.enqueue_task_dl p true
  if rq.rb.leftmost = some p then rq else rq.resched

def update_curr_dl (rq : Rq) : Rq :=
  match rq.curr with
  | none => rq
  | some p =>
      if (rq.task p).dl_prio ∧ rq.on_dl_rq p then
        let rq := rq.charge p
        let exceeds := dl_runtime_exceeded rq.clock (rq.task p).dl
        let rq := rq.setDlSe p fun _ => exceeds.2
        if exceeds.1 then rq.exceeded p else rq
      else rq

def dequeue_task_dl (rq : Rq) (p : Nat) : Rq :=
  let rq := rq.update_curr_dl.__dequeue_task_dl p
  { rq with nr_running := rq.nr_running - 1 }

def yield_task_dl (rq : Rq) : Rq :=
  match rq.curr with
  | none => rq
  | some p =>
      let rq :=
        if 0 < (rq.task p).dl.runtime then
          rq.setDlSe p fun dl_se => { dl_se with dl_new := true, runtime := 0 }
        else rq
      rq.update_curr_dl

def check_preempt_equal_dl (rq : Rq) (curr p : Nat) : Rq :=
  let find := fun q =>
    (cpudl_find rq.cpudl ∅ (rq.task q).cpus_allowed (rq.deadline q) none).1
  if (rq.task curr).nr_cpus_allowed = 1 ∨ find curr = none then rq
  else if (rq.task p).nr_cpus_allowed ≠ 1 ∧ find p ≠ none then rq
  else rq.resched

/-- Only called when both the current and the waking task are deadline tasks. -/
def check_preempt_curr_dl (rq : Rq) (curr p : Nat) : Rq :=
  if rq.Earlier p curr then rq.resched
  else if rq.deadline p = rq.deadline curr ∧ rq.need_resched = false then
    rq.check_preempt_equal_dl curr p
  else rq

def pick_next_task_dl (rq : Rq) : Option Nat × Rq :=
  if rq.dl_nr_running = 0 then (none, rq)
  else
    match rq.rb.leftmost with
    | none => (none, { rq with bug := true })
    | some p =>
        let rq := rq.setTask p fun t => { t with exec_start := rq.clock_task }
        (some p, rq.dequeue_pushable_dl_task p)

def put_prev_task_dl (rq : Rq) (p : Nat) : Rq :=
  let rq := rq.update_curr_dl
  if rq.on_dl_rq p ∧ rq.migratable p then rq.enqueue_pushable_dl_task p else rq

def set_curr_task_dl (rq : Rq) (p : Nat) : Rq :=
  let rq := rq.setTask p fun t => { t with exec_start := rq.clock_task }
  rq.dequeue_pushable_dl_task p

/-- Back in the trees, the task may preempt the running one. -/
def timerPreempt (rq : Rq) (p : Nat) : Rq :=
  match rq.curr with
  | some curr =>
      if (rq.task curr).dl_policy then rq.check_preempt_curr_dl curr p else rq.resched
  | none => rq.resched

def dl_task_timer (rq : Rq) (p : Nat) : Rq :=
  let rq := rq.setDlSe p fun dl_se => { dl_se with handler := false }
  if !(rq.task p).dl_prio || (rq.task p).dl.dl_new then rq
  else
    let rq := rq.setDlSe p fun dl_se => { dl_se with dl_throttled := false }
    if (rq.task p).on_rq then (rq.enqueue_task_dl p true).timerPreempt p else rq

/-- Without the pushing and pulling. -/
def switched_to_dl (rq : Rq) (p : Nat) : Rq :=
  if (rq.task p).dl.dl_throttled then rq
  else if (rq.task p).on_rq = false ∨ rq.curr ≠ some p then
    match rq.curr with
    | some curr => if (rq.task curr).dl_policy then rq.check_preempt_curr_dl curr p else rq
    | none => rq
  else rq

def prio_changed_dl (rq : Rq) (p : Nat) : Rq :=
  if (rq.task p).on_rq ∨ rq.curr = some p then
    if before rq.earliest_curr (rq.deadline p) ∧ rq.curr = some p then rq.resched else rq
  else rq.switched_to_dl p

def set_cpus_allowed_dl (rq : Rq) (p : Nat) (new_mask : Finset Nat) : Rq :=
  if ¬ rq.on_dl_rq p ∨ rq.migratable p = decide (1 < new_mask.card) then rq
  else
    let rq :=
      if new_mask.card ≤ 1 then
        let rq := if rq.curr ≠ some p then rq.dequeue_pushable_dl_task p else rq
        let rq := rq.BUG_ON (rq.dl_nr_migratory = 0)
        { rq with dl_nr_migratory := rq.dl_nr_migratory - 1 }
      else
        let rq := if rq.curr ≠ some p then rq.enqueue_pushable_dl_task p else rq
        { rq with dl_nr_migratory := rq.dl_nr_migratory + 1 }
    rq.update_dl_migration

/-! ## The scheduler's calls of them -/

/-- `check_preempt_curr`: by the class of the running task if it is this one, and at once
if that is a lower one. -/
def check_preempt_curr (rq : Rq) (p : Nat) : Rq :=
  match rq.curr with
  | some curr =>
      if rq.curr_stop then rq
      else if (rq.task curr).dl_prio then rq.check_preempt_curr_dl curr p
      else rq.resched
  | none => rq.resched

def activate_task (rq : Rq) (p : Nat) : Rq :=
  let rq := rq.setTask p fun t => { t with on_rq := true }
  if (rq.task p).dl_prio then rq.enqueue_task_dl p false else rq

/-- A task that slept wakes up here. -/
def activate (rq : Rq) (p : Nat) : Rq :=
  let rq := rq.activate_task p
  if (rq.task p).dl_prio then rq.check_preempt_curr p else rq

/-- The task goes to sleep, or is moved to another CPU. -/
def deactivate (rq : Rq) (p : Nat) : Rq :=
  let rq := if (rq.task p).dl_prio then rq.dequeue_task_dl p else rq
  rq.setTask p fun t => { t with on_rq := false }

/-- The running task may go to sleep, and is put back. -/
def stopPrev (rq : Rq) (sleeps : Bool) : Rq :=
  match rq.curr with
  | none => rq
  | some prev =>
      let rq := if sleeps then rq.deactivate prev else rq
      if (rq.task prev).dl_prio then rq.put_prev_task_dl prev else rq

/-- A task of `stop_sched_class` comes first.  Otherwise the earliest is picked, or without
one what a lower class has to offer. -/
def schedule (rq : Rq) (sleeps stop : Bool) (other : Option Nat) : Rq :=
  let rq := rq.stopPrev sleeps
  if stop then { rq with curr := other, curr_stop := true, need_resched := false }
  else
    match rq.pick_next_task_dl with
    | (some next, rq) => { rq with curr := some next, curr_stop := false, need_resched := false }
    | (none, rq) => { rq with curr := other, curr_stop := false, need_resched := false }

/-- What comes before a change of a task's parameters, if it is of this class. -/
def takenOff (rq : Rq) (p : Nat) : Rq :=
  if (rq.task p).dl_prio then
    let rq := if (rq.task p).on_rq then rq.dequeue_task_dl p else rq
    if rq.curr = some p then rq.put_prev_task_dl p else rq
  else rq

/-- What comes after it, if it is now; `prev` says if it was. -/
def putBack (rq : Rq) (p : Nat) (prev ENQUEUE_REPLENISH : Bool) : Rq :=
  if (rq.task p).dl_prio then
    let rq := if rq.curr = some p then rq.set_curr_task_dl p else rq
    let rq := if (rq.task p).on_rq then rq.enqueue_task_dl p ENQUEUE_REPLENISH else rq
    if prev then rq.prio_changed_dl p else rq.switched_to_dl p
  else rq

/-- Out of this class, the timer of a task that has another policy is cancelled.  Without the
pulling. -/
def switched_from_dl (rq : Rq) (p : Nat) : Rq :=
  if (rq.task p).dl_policy then rq else rq.setDlSe p hrtimer_try_to_cancel

/-- `check_class_changed`, as far as it is about leaving. -/
def left (rq : Rq) (p : Nat) (prev : Bool) : Rq :=
  if prev && !(rq.task p).dl_prio then rq.switched_from_dl p else rq

/-- Whether a task is boosted: by a waiter of this class, if its own policy is another one,
and otherwise by any waiter whose deadline is earlier. -/
def boosts (top : Option Waiter) (t : Task) : Bool :=
  match top with
  | none => false
  | some pi_task =>
      if t.dl_policy then decide (before pi_task.deadline t.dl.deadline) else pi_task.dl_prio

def setPiTop (rq : Rq) (p : Nat) (top : Option Waiter) : Rq :=
  rq.setTask p fun t => { t with pi_top := top.bind Waiter.params }

/-- The change of `rt_mutex_setprio`. -/
def boosted (top : Option Waiter) (t : Task) : Task :=
  let prio := t.dl_policy || top.any Waiter.dl_prio
  { t with
    dl_prio := prio
    dl :=
      if boosts top t then { t.dl with dl_boosted := true, dl_throttled := false }
      else if prio || t.dl_prio then { t.dl with dl_boosted := false }
      else t.dl }

def rt_mutex_setprio (rq : Rq) (p : Nat) (top : Option Waiter) : Rq :=
  let prev := (rq.task p).dl_prio
  let rq := (rq.setPiTop p top).takenOff p
  ((rq.setTask p (boosted top)).putBack p prev (boosts top (rq.task p))).left p prev

/-- The change of `__sched_setscheduler`, to this policy; `init_dl_task_timer` cancels a timer
that is active. -/
def __setparam_dl (R : Reservation) (t : Task) : Task :=
  { t with
    dl_policy := true
    dl_prio := true
    dl :=
      { hrtimer_try_to_cancel t.dl with
        own := some R
        dl_throttled := false
        dl_new := true } }

/-- And to another policy: the parameters stay.  The priority is still of this class if that
of a waiter is. -/
def __setscheduler (top_prio : Bool) (t : Task) : Task :=
  { t with dl_policy := false, dl_prio := top_prio }

def __sched_setscheduler (rq : Rq) (p : Nat) (R : Reservation) : Rq :=
  ((rq.takenOff p).setTask p (__setparam_dl R)).putBack p (rq.task p).dl_prio false

def setOther (rq : Rq) (p : Nat) (top_prio : Bool) : Rq :=
  let prev := (rq.task p).dl_prio
  (((rq.takenOff p).setTask p (__setscheduler top_prio)).putBack p prev false).left p prev

def do_set_cpus_allowed (rq : Rq) (p : Nat) (new_mask : Finset Nat) : Rq :=
  let rq := if (rq.task p).dl_prio then rq.set_cpus_allowed_dl p new_mask else rq
  rq.setTask p fun t => { t with cpus_allowed := new_mask }

/-- Of the copy that is made of the parent, what is not set here stays: the three flags are
those of the parent. -/
def __sched_fork (dl_se : Entity) : Entity :=
  { dl_se with own := none, runtime := 0, deadline := 0, dl_timer := false, handler := false }

/-- A child that would be of this class is refused. -/
def sched_fork (parent : Task) : Task :=
  { parent with
    dl := __sched_fork parent.dl
    dl_policy := false
    dl_prio := false
    pi_top := none
    on_rq := false
    exec_start := 0
    sum_exec_runtime := 0 }

/-! ## Runs -/

/-- How a task comes from another CPU: with a look at the running task, which is to be
replaced anyway (`push_dl_task`), or is not looked at (`pull_dl_task`). -/
inductive Arrival where
  | moved
  | pushed
  | pulled

def arrive (rq : Rq) (p : Nat) : Arrival → Rq
  | .moved => rq.activate p
  | .pushed => (rq.activate_task p).resched
  | .pulled => rq.activate_task p

inductive Event where
  | clock (clock clock_task now : Nat)
  | wake (p : Nat)
  /-- `stop`: a task of `stop_sched_class` is ready, and that is `other` -/
  | schedule (sleeps stop : Bool) (other : Option Nat)
  | tick
  | yield
  /-- another class, or the scheduler itself, wants the CPU back -/
  | resched
  /-- the timer of a task goes off, and its handler is called -/
  | expire (p : Nat)
  /-- the handler has the lock of the runqueue -/
  | timer (p : Nat)
  | setprio (p : Nat) (top : Option Waiter)
  | setparam (p : Nat) (R : Reservation)
  /-- the task gets another policy -/
  | setother (p : Nat) (top_prio : Bool)
  | affinity (p : Nat) (new_mask : Finset Nat)
  /-- a task that could not be pushed anywhere is no longer offered -/
  | unpushable (p : Nat)
  /-- a task is moved to, pushed to, or pulled by another CPU -/
  | leave (p : Nat)
  /-- a task comes from another CPU -/
  | join (p : Nat) (t : Task) (how : Arrival)
  /-- the running task forks, and the child does not run yet -/
  | fork (child : Nat)
  /-- the task is dead -/
  | dead (p : Nat)
  /-- another CPU enters its earliest deadline in the heap -/
  | remote (call : SetCall)

/-- The running task is one of `stop_sched_class`. -/
def Stops (rq : Rq) (p : Nat) : Prop := rq.curr_stop = true ∧ rq.curr = some p

instance (rq : Rq) (p : Nat) : Decidable (rq.Stops p) :=
  inferInstanceAs (Decidable (_ ∧ _))

/-- What the scheduler does not do: wake a task that is awake, let one yield that is not of
this class, pick one of another class that is asleep, move one that runs, fire a timer that
is not queued, change a running task of `stop_sched_class`, or use a task for a child.  A
task that comes from another CPU has its policy in order. -/
def react (NR_CPUS : Nat) (rq : Rq) : Event → Option Rq
  | .clock clock clock_task now =>
      some { rq with clock := clock, clock_task := clock_task, now := now }
  | .wake p => if (rq.task p).on_rq = false then some (rq.activate p) else none
  | .schedule sleeps stop other =>
      match other with
      | none => if stop = false then some (rq.schedule sleeps false none) else none
      | some q =>
          if (rq.task q).on_rq ∧ (rq.task q).dl_prio = false ∧
              (rq.curr = some q → sleeps = false) then
            some (rq.schedule sleeps stop (some q))
          else none
  | .tick => some rq.update_curr_dl
  | .yield =>
      match rq.curr with
      | some p => if (rq.task p).dl_prio then some rq.yield_task_dl else none
      | none => none
  | .resched => some rq.resched
  | .expire p =>
      if (rq.task p).dl.dl_timer ∧ (rq.task p).dl.handler = false then
        some (rq.setDlSe p fun dl_se => { dl_se with dl_timer := false, handler := true })
      else none
  | .timer p => if (rq.task p).dl.handler then some (rq.dl_task_timer p) else none
  | .setprio p top => if rq.Stops p then none else some (rq.rt_mutex_setprio p top)
  | .setparam p R => if rq.Stops p then none else some (rq.__sched_setscheduler p R)
  | .setother p top_prio => if rq.Stops p then none else some (rq.setOther p top_prio)
  | .affinity p new_mask => some (rq.do_set_cpus_allowed p new_mask)
  | .unpushable p => some (rq.dequeue_pushable_dl_task p)
  | .leave p =>
      if (rq.task p).on_rq ∧ rq.curr ≠ some p then some (rq.deactivate p) else none
  | .join p t how =>
      if (rq.task p).on_rq = false ∧ (t.dl_policy → t.dl.own.isSome ∧ t.dl_prio) then
        some ((rq.setTask p fun _ => t).arrive p how)
      else none
  | .fork child =>
      match rq.curr with
      | some parent =>
          if (rq.task child).on_rq = false ∧ (rq.task child).dl.active = false then
            some (rq.setTask child fun _ => sched_fork (rq.task parent))
          else none
      | none => none
  | .dead p =>
      if (rq.task p).on_rq = false ∧ (rq.task p).dl_prio ∧ (rq.task p).dl.handler = false then
        some (rq.setDlSe p fun dl_se => { dl_se with dl_timer := false })
      else none
  | .remote call =>
      if call.cpu ≠ rq.cpu ∧ call.Fits NR_CPUS then
        some { rq with cpudl := cpudl_set rq.cpudl call.cpu call.dl call.is_valid }
      else none

/-- After a `BUG_ON` nothing happens. -/
def step (NR_CPUS : Nat) (rq : Rq) (e : Event) : Option Rq :=
  if rq.bug then none else rq.react NR_CPUS e

/-- A task that never was of this class, nor a child of one that was. -/
def newTask (cpus_allowed : Finset Nat) : Task where
  dl := ⟨none, 0, 0, false, false, false, false, false⟩
  dl_policy := false
  dl_prio := false
  pi_top := none
  on_rq := false
  cpus_allowed := cpus_allowed
  exec_start := 0
  sum_exec_runtime := 0

/-- `init_dl_rq`, before there is any task that ever was of this class. -/
def init (NR_CPUS cpu : Nat) (ktime : Ktime) (cpus_allowed : Nat → Finset Nat) : Rq where
  cpu := cpu
  ktime := ktime
  clock := 0
  clock_task := 0
  now := 0
  curr := none
  curr_stop := false
  need_resched := false
  nr_running := 0
  rb := .empty
  dl_nr_running := 0
  earliest_curr := 0
  earliest_next := 0
  dl_nr_migratory := 0
  dl_nr_total := 0
  overloaded := false
  pushable := .empty
  cpudl := cpudl_init NR_CPUS
  task := fun p => newTask (cpus_allowed p)
  bug := false
  wrapped := false

end Rq

end KernelLab.Deadline
