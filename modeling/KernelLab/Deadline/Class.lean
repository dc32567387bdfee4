/-
# `KernelLab.Deadline.Class` — what the methods of the class keep

The invariant of the runqueue, as long as no `BUG_ON` has fired:

    the trees, their counts and the earliest deadlines agree
    a task in the tree is ready, not throttled, and of this class
    a ready task of this class is in the tree, or throttled

An operation takes one task off the trees, changes it, and puts it back.  What is kept
meanwhile is `Inv X`: the same with the tasks of `X` left out of it.
-/
import KernelLab.Deadline.Queue
import KernelLab.Lib.Run

namespace KernelLab.Deadline

open KernelLab.Serial KernelLab.RbTree

namespace Rq

set_option linter.style.nameCheck false

/-- A task with this policy has a reservation of its own, and a priority of this class. -/
def HasParams (t : Task) : Prop :=
  t.dl_policy = true → t.dl.own.isSome = true ∧ t.dl_prio = true

/-- Everything in order, but for the tasks of `X`. -/
structure Inv (NR_CPUS : Nat) (m : Nat → Option Nat) (X : Set Nat) (rq : Rq) : Prop where
  counts : Counts rq
  order : rq.wrapped = false → Order NR_CPUS m rq
  ready : ∀ p ∈ rq.queue, (rq.task p).on_rq = true ∧ (rq.task p).dl.dl_throttled = false ∧
    (rq.task p).dl_prio = true
  curr_on : ∀ p, p ∉ X → rq.curr = some p → (rq.task p).on_rq = true
  curr_push : ∀ p, p ∉ X → rq.curr = some p → p ∉ rq.pushq
  policy : ∀ p, HasParams (rq.task p)
  lost : rq.bug = false → ∀ p, p ∉ X → (rq.task p).on_rq = true →
    (rq.task p).dl_prio = true → p ∈ rq.queue ∨ (rq.task p).dl.dl_throttled = true

/-- What a change of a task leaves as it was. -/
structure Keeps (t t' : Task) : Prop where
  on_rq : t'.on_rq = t.on_rq
  dl_prio : t'.dl_prio = t.dl_prio
  throttled : t'.dl.dl_throttled = t.dl.dl_throttled
  dl_policy : t'.dl_policy = t.dl_policy
  own : t'.dl.own = t.dl.own

theorem Keeps.rfl {t : Task} : Keeps t t := ⟨.refl _, .refl _, .refl _, .refl _, .refl _⟩

variable {NR_CPUS : Nat} {m : Nat → Option Nat} {X : Set Nat} {rq : Rq} {p : Nat}

/-! ## Leaving a task out, and taking it in again -/

theorem Inv.mono (h : Inv NR_CPUS m X rq) {Y : Set Nat} (hXY : X ⊆ Y) : Inv NR_CPUS m Y rq :=
  ⟨h.counts, h.order, h.ready, fun p hp => h.curr_on p fun hX => hp (hXY hX),
    fun p hp => h.curr_push p fun hX => hp (hXY hX), h.policy,
    fun hbug p hp => h.lost hbug p fun hX => hp (hXY hX)⟩

theorem Inv.not_mem_pushq (h : Inv NR_CPUS m X rq) (hp : p ∉ rq.queue) : p ∉ rq.pushq :=
  fun hpush => hp (h.counts.push p hpush).1

/-- What is missing for a task that is left out. -/
structure InOrder (rq : Rq) (p : Nat) : Prop where
  curr : rq.curr = some p → (rq.task p).on_rq = true ∧ p ∉ rq.pushq
  lost : rq.bug = false → (rq.task p).on_rq = true → (rq.task p).dl_prio = true →
    p ∈ rq.queue ∨ (rq.task p).dl.dl_throttled = true

theorem Inv.inOrder (h : Inv NR_CPUS m X rq) (hp : p ∉ X) : InOrder rq p :=
  ⟨fun hcurr => ⟨h.curr_on p hp hcurr, h.curr_push p hp hcurr⟩, fun hbug => h.lost hbug p hp⟩

theorem Inv.restrict (h : Inv NR_CPUS m X rq) {Y : Set Nat}
    (hall : ∀ q ∈ X, q ∉ Y → InOrder rq q) : Inv NR_CPUS m Y rq := by
  have hq : ∀ q, q ∉ Y → InOrder rq q := by
    intro q hY
    by_cases hX : q ∈ X
    · exact hall q hX hY
    · exact h.inOrder hX
  exact ⟨h.counts, h.order, h.ready, fun q hY hcurr => ((hq q hY).curr hcurr).1,
    fun q hY hcurr => ((hq q hY).curr hcurr).2, h.policy, fun hbug q hY => (hq q hY).lost hbug⟩

theorem Inv.close (h : Inv NR_CPUS m (insert p X) rq) (hp : p ∉ X → InOrder rq p) :
    Inv NR_CPUS m X rq := by
  refine h.restrict fun q hin hX => ?_
  rcases hin with rfl | hin
  · exact hp hX
  · exact absurd hin hX

/-! ## Changes to a task -/

@[simp] theorem setTask_task_self (rq : Rq) (p : Nat) (f : Task → Task) :
    (rq.setTask p f).task p = f (rq.task p) :=
  Function.update_self ..

@[simp] theorem setDlSe_task_self (rq : Rq) (p : Nat) (f : Entity → Entity) :
    (rq.setDlSe p f).task p = { rq.task p with dl := f (rq.task p).dl } :=
  Function.update_self ..

theorem setTask_task_ne {q : Nat} (hq : q ≠ p) (f : Task → Task) :
    (rq.setTask p f).task q = rq.task q :=
  Function.update_of_ne hq ..

theorem setDlSe_task_ne {q : Nat} (hq : q ≠ p) (f : Entity → Entity) :
    (rq.setDlSe p f).task q = rq.task q :=
  Function.update_of_ne hq ..

theorem Inv.setTask (h : Inv NR_CPUS m X rq) {f : Task → Task}
    (hf : Keeps (rq.task p) (f (rq.task p)))
    (hmove : p ∈ rq.queue → mayMove (f (rq.task p)) = mayMove (rq.task p))
    (hdl : p ∈ rq.queue → (f (rq.task p)).dl.deadline = (rq.task p).dl.deadline) :
    Inv NR_CPUS m X (rq.setTask p f) := by
  have hall : ∀ q, Keeps (rq.task q) ((rq.setTask p f).task q) := by
    intro q
    by_cases hq : q = p
    · subst hq
      rw [setTask_task_self]
      exact hf
    · rw [setTask_task_ne hq]
      exact .rfl
  refine ⟨h.counts.setTask hmove, fun hw => (h.order hw).setTask h.counts hdl,
    ?_, ?_, h.curr_push, ?_, ?_⟩
  · intro q hq
    rw [(hall q).on_rq, (hall q).throttled, (hall q).dl_prio]
    exact h.ready q hq
  · intro q hX hq
    rw [(hall q).on_rq]
    exact h.curr_on q hX hq
  · intro q
    unfold HasParams
    rw [(hall q).dl_policy, (hall q).own, (hall q).dl_prio]
    exact h.policy q
  · intro hbug q hX
    rw [(hall q).on_rq, (hall q).throttled, (hall q).dl_prio]
    exact h.lost hbug q hX

/-- A task that is off the trees and left out may change in any way. -/
theorem Inv.setTask_off (h : Inv NR_CPUS m X rq) (hp : p ∉ rq.queue) (hX : p ∈ X)
    {f : Task → Task} (hf : HasParams (f (rq.task p))) : Inv NR_CPUS m X (rq.setTask p f) := by
  have hne : ∀ q ∈ rq.queue, (rq.setTask p f).task q = rq.task q := by
    intro q hq
    refine setTask_task_ne ?_ f
    rintro rfl
    exact hp hq
  have hout : ∀ q, q ∉ X → (rq.setTask p f).task q = rq.task q := by
    intro q hq
    refine setTask_task_ne ?_ f
    rintro rfl
    exact hq hX
  refine ⟨h.counts.setTask fun hq => absurd hq hp,
    fun hw => (h.order hw).setTask h.counts fun hq => absurd hq hp, ?_, ?_, h.curr_push, ?_, ?_⟩
  · intro q hq
    rw [hne q hq]
    exact h.ready q hq
  · intro q hq hcurr
    rw [hout q hq]
    exact h.curr_on q hq hcurr
  · intro q
    by_cases hqp : q = p
    · subst hqp
      rw [setTask_task_self]
      exact hf
    · rw [setTask_task_ne hqp]
      exact h.policy q
  · intro hbug q hq
    rw [hout q hq]
    exact h.lost hbug q hq

/-! ## Out of the trees -/

/-- What the trees have no part in. -/
structure Frame (rq rq' : Rq) : Prop where
  cpu : rq'.cpu = rq.cpu
  clock : rq'.clock = rq.clock
  clock_task : rq'.clock_task = rq.clock_task
  starts : rq'.starts = rq.starts
  curr : rq'.curr = rq.curr
  stop : rq'.curr_stop = rq.curr_stop
  task : rq'.task = rq.task
  need_resched : rq'.need_resched = rq.need_resched
  bug : rq'.bug = rq.bug
  wrapped : rq'.wrapped = rq.wrapped

theorem Counts.dequeue_frame (h : Counts rq) (p : Nat) : Frame rq (rq.__dequeue_task_dl p) := by
  by_cases hp : p ∈ rq.queue
  · obtain ⟨_, _, _, _, -, -, heq⟩ := h.dequeue_task_eq hp
    rw [heq]
    exact ⟨rfl, rfl, rfl, rfl, rfl, rfl, rfl, rfl, rfl, rfl⟩
  · rw [h.dequeue_task_of_not_mem hp]
    exact ⟨rfl, rfl, rfl, rfl, rfl, rfl, rfl, rfl, rfl, rfl⟩

theorem Counts.pushq_dequeue (h : Counts rq) {q : Nat} (hq : q ∈ (rq.__dequeue_task_dl p).pushq) :
    q ∈ rq.pushq := by
  by_cases hp : p ∈ rq.queue
  · obtain ⟨_, _, _, t, -, hinorder, heq⟩ := h.dequeue_task_eq hp
    rw [heq] at hq
    have hq : q ∈ t.root.inorder := hq
    rw [hinorder] at hq
    exact List.mem_of_mem_erase hq
  · rwa [h.dequeue_task_of_not_mem hp] at hq

theorem Counts.not_mem_dequeue (h : Counts rq) (p : Nat) : p ∉ (rq.__dequeue_task_dl p).queue := by
  rw [h.queue_dequeue p]
  exact h.shape.nodup.not_mem_erase

theorem Inv.dequeue (h : Inv NR_CPUS m X rq) (p : Nat) :
    Inv NR_CPUS m (insert p X) (rq.__dequeue_task_dl p) := by
  have hframe := h.counts.dequeue_frame p
  have hq := h.counts.queue_dequeue p
  refine ⟨h.counts.dequeue_task p, ?_, ?_, ?_, ?_, ?_, ?_⟩
  · intro hw
    rw [hframe.wrapped] at hw
    exact (h.order hw).dequeue_task h.counts p
  · intro q hmem
    rw [hq] at hmem
    rw [hframe.task]
    exact h.ready q (List.mem_of_mem_erase hmem)
  · intro q hX hcurr
    rw [hframe.curr] at hcurr
    rw [hframe.task]
    exact h.curr_on q (fun hin => hX (Set.mem_insert_of_mem p hin)) hcurr
  · intro q hX hcurr hpush
    rw [hframe.curr] at hcurr
    exact h.curr_push q (fun hin => hX (Set.mem_insert_of_mem p hin)) hcurr
      (h.counts.pushq_dequeue hpush)
  · rw [hframe.task]
    exact h.policy
  · intro hbug q hX hon hprio
    rw [hframe.bug] at hbug
    rw [hframe.task] at hon hprio ⊢
    rw [hq]
    have hqp : q ≠ p := by
      rintro rfl
      exact hX (Set.mem_insert q X)
    refine (h.lost hbug q (fun hin => hX (Set.mem_insert_of_mem p hin)) hon hprio).imp_left ?_
    exact fun hmem => h.counts.shape.nodup.mem_erase_iff.mpr ⟨hqp, hmem⟩

/-! ## Into the trees -/

/-- What the invariant has no part in, or only if no `BUG_ON` has fired. -/
theorem Inv.aside (h : Inv NR_CPUS m X rq) (clock clock_task now : Nat) (need_resched : Bool)
    (nr_running : Int) {bug : Bool} (hbug : bug = false → rq.bug = false) :
    Inv NR_CPUS m X
      { rq with
        clock := clock
        clock_task := clock_task
        now := now
        need_resched := need_resched
        nr_running := nr_running
        bug := bug } :=
  ⟨⟨h.counts.shape, h.counts.pshape, h.counts.running, h.counts.total, h.counts.migratory,
      h.counts.overloaded, h.counts.push⟩,
    fun hw => ⟨⟨(h.order hw).curr, (h.order hw).next, (h.order hw).cpudl⟩, (h.order hw).cpu_lt,
      (h.order hw).range, (h.order hw).sorted, (h.order hw).psorted⟩,
    h.ready, h.curr_on, h.curr_push, h.policy, fun hb => h.lost (hbug hb)⟩

theorem Inv.bug (h : Inv NR_CPUS m X rq) {b : Bool} (hb : b = false → rq.bug = false) :
    Inv NR_CPUS m X { rq with bug := b } :=
  h.aside _ _ _ _ _ hb

theorem Inv.nr_running (h : Inv NR_CPUS m X rq) (n : Int) :
    Inv NR_CPUS m X { rq with nr_running := n } :=
  h.aside _ _ _ _ _ id

theorem Inv.resched (h : Inv NR_CPUS m X rq) : Inv NR_CPUS m X rq.resched :=
  h.aside _ _ _ _ _ id

theorem Inv.enqueue_entity (h : Inv NR_CPUS m (insert p X) rq) (hp : p ∉ rq.queue)
    (hon : (rq.task p).on_rq = true) (hthr : (rq.task p).dl.dl_throttled = false)
    (hprio : (rq.task p).dl_prio = true) :
    Inv NR_CPUS m (insert p X) (rq.__enqueue_dl_entity p) := by
  obtain ⟨ec, en, cd, heq⟩ := enqueue_entity_eq rq p
  have hcounts := h.counts.enqueue_entity hp
  have hperm : (rq.__enqueue_dl_entity p).queue.Perm (p :: rq.queue) := by
    rw [heq]
    exact rq.rb.perm_insert rq.Earlier p
  have htask : (rq.__enqueue_dl_entity p).task = rq.task := by rw [heq]
  refine ⟨hcounts, ?_, ?_, ?_, ?_, ?_, ?_⟩
  · intro hw
    have hw' : rq.wrapped = false ∧ InRange (rq.deadline p) := by
      rw [heq] at hw
      simpa using hw
    exact (h.order hw'.1).enqueue_entity h.counts hp hw'.2
  · intro q hq
    rw [htask]
    rcases List.mem_cons.mp (hperm.mem_iff.mp hq) with rfl | hq
    · exact ⟨hon, hthr, hprio⟩
    · exact h.ready q hq
  · intro q hX hq
    rw [heq] at hq
    rw [htask]
    exact h.curr_on q hX hq
  · intro q hX hq
    rw [heq] at hq ⊢
    exact h.curr_push q hX hq
  · rw [htask]
    exact h.policy
  · intro hbug q hX hon' hprio'
    have hbug' : rq.bug = false := by
      rw [heq] at hbug
      exact (Bool.or_eq_false_iff.mp hbug).1
    rw [htask] at hon' hprio' ⊢
    refine (h.lost hbug' q hX hon' hprio').imp_left fun hq => ?_
    exact hperm.mem_iff.mpr (List.mem_cons_of_mem _ hq)

theorem Inv.enqueue_pushable (h : Inv NR_CPUS m X rq) (hp : p ∈ rq.queue)
    (hmig : rq.migratable p = true) (hpush : p ∉ rq.pushq) (hcurr : p ∉ X → rq.curr ≠ some p) :
    Inv NR_CPUS m X (rq.enqueue_pushable_dl_task p) := by
  refine ⟨h.counts.enqueue_pushable hp hmig hpush,
    fun hw => (h.order hw).enqueue_pushable h.counts hp, h.ready, h.curr_on, ?curr_push, h.policy,
    fun hbug => h.lost ?bug⟩
  case curr_push =>
    intro q hX hq hin
    rcases List.mem_cons.mp ((rq.pushable.perm_insert _ p).mem_iff.mp hin) with rfl | hin
    · exact hcurr hX hq
    · exact h.curr_push q hX hq hin
  case bug =>
    have hbug : (rq.bug || decide (p ∈ rq.pushq)) = false := hbug
    exact (Bool.or_eq_false_iff.mp hbug).1

/-- The entity of the task as it is queued. -/
def refreshed (rq : Rq) (p : Nat) (ENQUEUE_REPLENISH : Bool) : Entity :=
  refresh rq.clock (rq.task p).pi_se ENQUEUE_REPLENISH (rq.task p).dl

theorem refreshed_flags (rq : Rq) (p : Nat) (b : Bool) :
    SameFlags (rq.task p).dl (rq.refreshed p b) :=
  refresh_flags ..

/-- The task is to be replenished, and has no parameters, own or inherited. -/
def lacks (t : Task) (ENQUEUE_REPLENISH : Bool) : Bool :=
  !t.dl.dl_new && ENQUEUE_REPLENISH && t.pi_se.isNone

theorem dl_runtime_eq_zero (pi_se : Params) : pi_se.dl_runtime = 0 ↔ pi_se = none := by
  cases pi_se with
  | none => exact ⟨fun _ => rfl, fun _ => rfl⟩
  | some R =>
      have hpos := R.runtime_pos
      simp only [Params.dl_runtime_some, reduceCtorEq, iff_false]
      omega

/-- The `BUG_ON` of `replenish_dl_entity`. -/
theorem lacks_eq (t : Task) (b : Bool) :
    decide ((!t.dl.dl_new && b) = true ∧ t.pi_se.dl_runtime = 0) = lacks t b := by
  unfold lacks
  rw [Bool.decide_and, Bool.decide_eq_true]
  congr 1
  rw [Bool.eq_iff_iff, decide_eq_true_iff, dl_runtime_eq_zero, Option.isNone_iff_eq_none]

/-- `rq'` is `rq` with the task `p` in the trees. -/
structure Queued (rq rq' : Rq) (p : Nat) (ENQUEUE_REPLENISH : Bool) : Prop where
  cpu : rq'.cpu = rq.cpu
  clock : rq'.clock = rq.clock
  clock_task : rq'.clock_task = rq.clock_task
  starts : rq'.starts = rq.starts
  curr : rq'.curr = rq.curr
  stop : rq'.curr_stop = rq.curr_stop
  need_resched : rq'.need_resched = rq.need_resched
  task : rq'.task =
    Function.update rq.task p { rq.task p with dl := rq.refreshed p ENQUEUE_REPLENISH }
  queue : rq'.queue.Perm (p :: rq.queue)
  push : ∀ q ∈ rq'.pushq, q ∈ rq.pushq ∨ q = p ∧ rq.curr ≠ some p
  bug : p ∉ rq.queue → p ∉ rq.pushq → rq'.bug = (rq.bug || lacks (rq.task p) ENQUEUE_REPLENISH)
  ok : rq'.bug = false → rq.bug = false
  twice : p ∈ rq.queue → rq'.bug = true
  wrapped : rq'.wrapped = false →
    rq.wrapped = false ∧ InRange (rq.refreshed p ENQUEUE_REPLENISH).deadline

theorem enqueue_dl_entity_queued (rq : Rq) (p : Nat) (b : Bool) :
    Queued rq (rq.enqueue_dl_entity p (rq.task p).pi_se b) p b ∧
      (rq.enqueue_dl_entity p (rq.task p).pi_se b).pushq = rq.pushq := by
  obtain ⟨ec, en, cd, heq⟩ := enqueue_entity_eq
    (((rq.BUG_ON (rq.on_dl_rq p)).BUG_ON ((!(rq.task p).dl.dl_new && b) = true ∧
      (rq.task p).pi_se.dl_runtime = 0)).setDlSe p (refresh rq.clock (rq.task p).pi_se b)) p
  have heq' : rq.enqueue_dl_entity p (rq.task p).pi_se b = _ := heq
  have hbug : (rq.enqueue_dl_entity p (rq.task p).pi_se b).bug =
      (((rq.bug || decide (p ∈ rq.queue)) || lacks (rq.task p) b) ||
        decide (p ∈ rq.queue)) := by
    rw [heq', ← lacks_eq]
    rfl
  refine ⟨⟨?_, ?_, ?_, ?_, ?_, ?_, ?_, ?_, ?queue, ?push, ?bug, ?ok, ?twice, ?wrapped⟩,
    by rw [heq']; rfl⟩
  case queue =>
    rw [heq']
    exact rq.rb.perm_insert _ p
  case push =>
    rw [heq']
    exact fun q hq => .inl hq
  case bug =>
    intro hp _
    rw [hbug]
    simp [hp]
  case ok =>
    intro hb
    rw [hbug] at hb
    simp only [Bool.or_eq_false_iff] at hb
    exact hb.1.1.1
  case twice =>
    intro hp
    rw [hbug]
    simp [hp]
  case wrapped =>
    intro hw
    rw [heq'] at hw
    simpa [deadline, setDlSe, Rq.setTask, BUG_ON, refreshed] using hw
  all_goals
    rw [heq']
    rfl

/-- What `enqueue_task_dl` does to a task that is not throttled. -/
theorem enqueue_task_queued (b : Bool) (hthr : (rq.task p).dl.dl_throttled = false) :
    Queued rq (rq.enqueue_task_dl p b) p b := by
  obtain ⟨h, hpush⟩ := enqueue_dl_entity_queued rq p b
  unfold enqueue_task_dl
  rw [if_neg (by simp [hthr])]
  simp only
  split
  · rename_i hc
    rw [h.curr] at hc
    refine ⟨h.cpu, h.clock, h.clock_task, h.starts, h.curr, h.stop, h.need_resched, h.task,
      h.queue, ?_, ?_, ?_, ?_, h.wrapped⟩
    · intro q hq
      have hq := ((rq.enqueue_dl_entity p (rq.task p).pi_se b).pushable.perm_insert _
        p).mem_iff.mp hq
      rcases List.mem_cons.mp hq with rfl | hq
      · exact .inr ⟨rfl, hc.1⟩
      · exact h.push q hq
    · intro hp hp'
      have hbug := h.bug hp hp'
      show ((rq.enqueue_dl_entity p (rq.task p).pi_se b).bug ||
        decide (p ∈ (rq.enqueue_dl_entity p (rq.task p).pi_se b).pushq)) = _
      rw [hpush, hbug]
      simp [hp']
    · intro hb
      exact h.ok (Bool.or_eq_false_iff.mp hb).1
    · intro hp
      simp [enqueue_pushable_dl_task, BUG_ON, h.twice hp]
  · exact ⟨h.cpu, h.clock, h.clock_task, h.starts, h.curr, h.stop, h.need_resched, h.task,
      h.queue, h.push, h.bug, h.ok, h.twice, h.wrapped⟩

theorem Queued.mem {rq' : Rq} {b : Bool} (h : Queued rq rq' p b) (q : Nat) :
    q ∈ rq'.queue ↔ q = p ∨ q ∈ rq.queue :=
  h.queue.mem_iff.trans List.mem_cons

theorem Queued.task_self {rq' : Rq} {b : Bool} (h : Queued rq rq' p b) :
    rq'.task p = { rq.task p with dl := rq.refreshed p b } := by
  rw [h.task, Function.update_self]

theorem Queued.task_ne {rq' : Rq} {b : Bool} (h : Queued rq rq' p b) {q : Nat} (hq : q ≠ p) :
    rq'.task q = rq.task q := by
  rw [h.task, Function.update_of_ne hq]

theorem enqueue_task_throttled (b : Bool) (hthr : (rq.task p).dl.dl_throttled = true) :
    rq.enqueue_task_dl p b = rq :=
  if_pos hthr

theorem Inv.enqueue_dl_entity (h : Inv NR_CPUS m (insert p X) rq) (hp : p ∉ rq.queue)
    (hon : (rq.task p).on_rq = true) (hthr : (rq.task p).dl.dl_throttled = false)
    (hprio : (rq.task p).dl_prio = true) (b : Bool) :
    Inv NR_CPUS m (insert p X) (rq.enqueue_dl_entity p (rq.task p).pi_se b) := by
  have hflags := rq.refreshed_flags p b
  have h₁ : Inv NR_CPUS m (insert p X) (((rq.BUG_ON (rq.on_dl_rq p)).BUG_ON
      ((!(rq.task p).dl.dl_new && b) = true ∧ (rq.task p).pi_se.dl_runtime = 0)).setDlSe p
        (refresh rq.clock (rq.task p).pi_se b)) :=
    (h.bug fun hb => (Bool.or_eq_false_iff.mp (Bool.or_eq_false_iff.mp hb).1).1).setTask
      ⟨rfl, rfl, hflags.throttled, rfl, hflags.own⟩ (fun hq => absurd hq hp)
      fun hq => absurd hq hp
  refine h₁.enqueue_entity hp ?_ ?_ ?_
  · simpa [setDlSe, BUG_ON] using hon
  · simpa [setDlSe, BUG_ON, (refresh_flags _ _ _ _).throttled] using hthr
  · simpa [setDlSe, BUG_ON] using hprio

theorem Inv.enqueue_task (h : Inv NR_CPUS m (insert p X) rq) (hp : p ∉ rq.queue)
    (hon : (rq.task p).on_rq = true) (hprio : (rq.task p).dl_prio = true) (b : Bool) :
    Inv NR_CPUS m X (rq.enqueue_task_dl p b) := by
  cases hthr : (rq.task p).dl.dl_throttled with
  | true =>
      rw [enqueue_task_throttled b hthr]
      exact h.close fun _ => ⟨fun _ => ⟨hon, h.not_mem_pushq hp⟩, fun _ _ _ => .inr hthr⟩
  | false =>
      have hqueued := enqueue_task_queued b hthr
      obtain ⟨hmid, hpushq⟩ := enqueue_dl_entity_queued rq p b
      have hmidInv := h.enqueue_dl_entity hp hon hthr hprio b
      have hInv : Inv NR_CPUS m (insert p X) (rq.enqueue_task_dl p b) := by
        unfold enqueue_task_dl
        rw [if_neg (by simp [hthr])]
        simp only
        split
        · rename_i hc
          refine (hmidInv.enqueue_pushable ((hmid.mem p).mpr (.inl rfl)) hc.2 ?_ fun hX =>
            absurd (Set.mem_insert p X) hX).nr_running _
          rw [hpushq]
          exact h.not_mem_pushq hp
        · exact hmidInv.nr_running _
      refine hInv.close fun _ => ⟨fun hcurr => ⟨?_, fun hpush => ?_⟩,
        fun _ _ _ => .inl ((hqueued.mem p).mpr (.inl rfl))⟩
      · rw [hqueued.task_self]
        exact hon
      · rw [hqueued.curr] at hcurr
        rcases hqueued.push p hpush with hin | ⟨-, hne⟩
        · exact h.not_mem_pushq hp hin
        · exact hne hcurr

/-! ## Charging the running task -/

/-- The running task with the time since the last time, and the time past its deadline,
taken off its budget. -/
def charged (rq : Rq) (p : Nat) : Rq :=
  (rq.charge p).setDlSe p fun _ => (dl_runtime_exceeded rq.clock ((rq.charge p).task p).dl).2

/-- Is its budget used up, or its deadline past? -/
def exceeds (rq : Rq) (p : Nat) : Bool :=
  (dl_runtime_exceeded rq.clock ((rq.charge p).task p).dl).1

theorem update_curr_cases (rq : Rq) :
    (rq.update_curr_dl = rq ∧
      ∀ p, rq.curr = some p → (rq.task p).dl_prio = true → p ∉ rq.queue) ∨
    ∃ p, rq.curr = some p ∧ (rq.task p).dl_prio = true ∧ p ∈ rq.queue ∧
      rq.update_curr_dl =
        if rq.exceeds p then (rq.charged p).exceeded p else rq.charged p := by
  unfold update_curr_dl
  split
  · rename_i hcurr
    exact .inl ⟨rfl, fun p hp => by rw [hcurr] at hp; cases hp⟩
  · rename_i p hcurr
    split
    · rename_i hp
      exact .inr ⟨p, hcurr, hp.1, hp.2, rfl⟩
    · rename_i hp
      refine .inl ⟨rfl, fun q hq hprio hmem => hp ?_⟩
      rw [hcurr] at hq
      obtain rfl := Option.some.inj hq
      exact ⟨hprio, hmem⟩

/-- All that the charge changes. -/
theorem charged_eq (rq : Rq) (p : Nat) :
    ∃ sum runtime, rq.charged p =
      rq.setTask p fun t =>
        { t with
          sum_exec_runtime := sum
          exec_start := rq.clock_task
          dl := { t.dl with runtime := runtime } } := by
  obtain ⟨runtime, hr⟩ := exceeded_eq rq.clock ((rq.charge p).task p).dl
  refine ⟨(rq.task p).sum_exec_runtime + rq.delta_exec p, runtime, ?_⟩
  unfold charged
  rw [hr]
  simp only [setDlSe, charge, Rq.setTask, Function.update_idem, Function.update_self]

theorem Inv.charged (h : Inv NR_CPUS m X rq) (p : Nat) : Inv NR_CPUS m X (rq.charged p) := by
  obtain ⟨sum, runtime, heq⟩ := charged_eq rq p
  rw [heq]
  exact h.setTask ⟨rfl, rfl, rfl, rfl, rfl⟩ (fun _ => rfl) fun _ => rfl

/-- What no operation on the trees changes. -/
structure Same (rq rq' : Rq) : Prop where
  cpu : rq'.cpu = rq.cpu
  clock : rq'.clock = rq.clock
  clock_task : rq'.clock_task = rq.clock_task
  starts : rq'.starts = rq.starts
  curr : rq'.curr = rq.curr
  stop : rq'.curr_stop = rq.curr_stop
  on_rq : ∀ p, (rq'.task p).on_rq = (rq.task p).on_rq
  dl_prio : ∀ p, (rq'.task p).dl_prio = (rq.task p).dl_prio
  dl_policy : ∀ p, (rq'.task p).dl_policy = (rq.task p).dl_policy
  cpus : ∀ p, (rq'.task p).cpus_allowed = (rq.task p).cpus_allowed
  pi_top : ∀ p, (rq'.task p).pi_top = (rq.task p).pi_top
  own : ∀ p, (rq'.task p).dl.own = (rq.task p).dl.own
  boosted : ∀ p, (rq'.task p).dl.dl_boosted = (rq.task p).dl.dl_boosted
  tame : ∀ p, Tame (rq.task p).dl (rq'.task p).dl
  ok : rq'.bug = false → rq.bug = false
  unwrapped : rq'.wrapped = false → rq.wrapped = false
  resched : rq'.need_resched = false → rq.need_resched = false

namespace Same

theorem rfl {rq : Rq} : Same rq rq :=
  ⟨.refl _, .refl _, .refl _, .refl _, .refl _, .refl _, fun _ => .refl _, fun _ => .refl _,
    fun _ => .refl _, fun _ => .refl _, fun _ => .refl _, fun _ => .refl _, fun _ => .refl _,
    fun _ => .rfl, id, id, id⟩

theorem trans {rq rq' rq'' : Rq} (h : Same rq rq') (h' : Same rq' rq'') : Same rq rq'' :=
  ⟨h'.cpu.trans h.cpu, h'.clock.trans h.clock, h'.clock_task.trans h.clock_task,
    h'.starts.trans h.starts, h'.curr.trans h.curr, h'.stop.trans h.stop,
    fun p => (h'.on_rq p).trans (h.on_rq p), fun p => (h'.dl_prio p).trans (h.dl_prio p),
    fun p => (h'.dl_policy p).trans (h.dl_policy p), fun p => (h'.cpus p).trans (h.cpus p),
    fun p => (h'.pi_top p).trans (h.pi_top p), fun p => (h'.own p).trans (h.own p),
    fun p => (h'.boosted p).trans (h.boosted p), fun p => (h.tame p).trans (h'.tame p),
    h.ok ∘ h'.ok, h.unwrapped ∘ h'.unwrapped, h.resched ∘ h'.resched⟩

theorem pi_se {rq rq' : Rq} (h : Same rq rq') (p : Nat) :
    (rq'.task p).pi_se = (rq.task p).pi_se := by
  unfold Task.pi_se
  rw [h.pi_top p, h.boosted p, h.own p]

/-- One task changes, and of it only what may. -/
theorem of_update {rq rq' : Rq} {p : Nat} {t : Task} (hcpu : rq'.cpu = rq.cpu)
    (hclock : rq'.clock = rq.clock) (hclock_task : rq'.clock_task = rq.clock_task)
    (hstarts : rq'.starts = rq.starts) (hcurr : rq'.curr = rq.curr)
    (hstop : rq'.curr_stop = rq.curr_stop) (htask : rq'.task = Function.update rq.task p t)
    (hon : t.on_rq = (rq.task p).on_rq) (hprio : t.dl_prio = (rq.task p).dl_prio)
    (hpolicy : t.dl_policy = (rq.task p).dl_policy)
    (hcpus : t.cpus_allowed = (rq.task p).cpus_allowed) (htop : t.pi_top = (rq.task p).pi_top)
    (hown : t.dl.own = (rq.task p).dl.own)
    (hboosted : t.dl.dl_boosted = (rq.task p).dl.dl_boosted) (htame : Tame (rq.task p).dl t.dl)
    (hok : rq'.bug = false → rq.bug = false)
    (hwrapped : rq'.wrapped = false → rq.wrapped = false)
    (hresched : rq'.need_resched = false → rq.need_resched = false) : Same rq rq' := by
  have hcases : ∀ q, rq'.task q = if q = p then t else rq.task q := by
    intro q
    rw [htask, Function.update_apply]
  refine ⟨hcpu, hclock, hclock_task, hstarts, hcurr, hstop, ?_, ?_, ?_, ?_, ?_, ?_, ?_, ?tame,
    hok, hwrapped, hresched⟩
  case tame =>
    intro q
    rw [hcases q]
    split
    · rename_i hq
      subst hq
      exact htame
    · exact .rfl
  all_goals
    intro q
    rw [hcases q]
    split
    · rename_i hq
      subst hq
      assumption
    · rfl

end Same

theorem Frame.same {rq rq' : Rq} (h : Frame rq rq') : Same rq rq' := by
  have htame : ∀ p, Tame (rq.task p).dl (rq'.task p).dl := by
    intro p
    rw [h.task]
    exact .rfl
  refine ⟨h.cpu, h.clock, h.clock_task, h.starts, h.curr, h.stop, ?_, ?_, ?_, ?_, ?_, ?_, ?_,
    htame, h.bug ▸ id, h.wrapped ▸ id, h.need_resched ▸ id⟩ <;>
  · intro p
    rw [h.task]

theorem Queued.same {rq rq' : Rq} {p : Nat} {b : Bool} (h : Queued rq rq' p b)
    (hthr : (rq.task p).dl.dl_throttled = false) : Same rq rq' := by
  have hflags := rq.refreshed_flags p b
  exact .of_update h.cpu h.clock h.clock_task h.starts h.curr h.stop h.task rfl rfl rfl rfl rfl
    hflags.own hflags.boosted (hflags.tame hthr) h.ok (fun hw => (h.wrapped hw).1)
    (h.need_resched ▸ id)

theorem enqueue_task_same (rq : Rq) (p : Nat) (b : Bool) : Same rq (rq.enqueue_task_dl p b) := by
  cases hthr : (rq.task p).dl.dl_throttled with
  | true =>
      rw [enqueue_task_throttled b hthr]
      exact .rfl
  | false => exact (enqueue_task_queued b hthr).same hthr

theorem charged_same (rq : Rq) (p : Nat) : Same rq (rq.charged p) := by
  obtain ⟨sum, runtime, heq⟩ := charged_eq rq p
  rw [heq]
  exact .of_update rfl rfl rfl rfl rfl rfl rfl rfl rfl rfl rfl rfl rfl rfl
    ⟨fun h => ⟨h.throttled, h.once⟩, id, fun _ => id, id⟩ id id id

theorem resched_same (rq : Rq) : Same rq rq.resched :=
  .of_update rfl rfl rfl rfl rfl rfl (Function.update_eq_self 0 rq.task).symm rfl rfl rfl rfl rfl
    rfl rfl .rfl id id Bool.noConfusion

/-- The budget is used up: the timer is started, or else the task is replenished at once. -/
theorem exceeded_cases (h : Counts rq) (p : Nat) :
    ((rq.exceeded p =
        ((rq.__dequeue_task_dl p).setDlSe p fun dl_se =>
          { dl_se with dl_throttled := true, dl_timer := true }).resched) ∧
      rq.starts (rq.task p).dl = true) ∨
    rq.starts (rq.task p).dl = false ∧
      ((rq.exceeded p = (rq.__dequeue_task_dl p).enqueue_task_dl p true ∧
          (rq.exceeded p).rb.leftmost = some p) ∨
        rq.exceeded p = ((rq.__dequeue_task_dl p).enqueue_task_dl p true).resched) := by
  have hframe := h.dequeue_frame p
  have hleft : (rq.__dequeue_task_dl p).rb.leftmost ≠ some p := by
    rw [(h.dequeue_task p).shape.first]
    intro hhead
    exact h.not_mem_dequeue p (List.mem_of_mem_head? hhead)
  unfold exceeded
  simp only [hframe.starts, hframe.task]
  cases hstart : rq.starts (rq.task p).dl with
  | true =>
      refine .inl ⟨?_, rfl⟩
      rw [if_pos rfl]
      exact if_neg hleft
  | false =>
      refine .inr ⟨rfl, ?_⟩
      simp only [Bool.false_eq_true, if_false]
      split
      · rename_i hfirst
        exact .inl ⟨rfl, hfirst⟩
      · exact .inr rfl

theorem Inv.exceeded (h : Inv NR_CPUS m X rq) (hp : p ∈ rq.queue) :
    Inv NR_CPUS m X (rq.exceeded p) := by
  obtain ⟨hon, hthr, hprio⟩ := h.ready p hp
  have hframe := h.counts.dequeue_frame p
  have hout := h.counts.not_mem_dequeue p
  have hdeq := h.dequeue p
  have henq : Inv NR_CPUS m X ((rq.__dequeue_task_dl p).enqueue_task_dl p true) := by
    refine hdeq.enqueue_task hout ?_ ?_ true
    · rw [hframe.task]
      exact hon
    · rw [hframe.task]
      exact hprio
  rcases exceeded_cases h.counts p with ⟨heq, -⟩ | ⟨-, ⟨heq, -⟩ | heq⟩
  · rw [heq]
    have hparams := hdeq.policy p
    refine Inv.resched (Inv.close (hdeq.setTask_off hout (Set.mem_insert p X) hparams)
      fun _ => ⟨fun _ => ⟨?_, hdeq.not_mem_pushq hout⟩, fun _ _ _ => .inr ?_⟩)
    · rw [setDlSe_task_self, hframe.task]
      exact hon
    · rw [setDlSe_task_self]
  · rw [heq]
    exact henq
  · rw [heq]
    exact henq.resched

/-- The timer of a task that is not throttled is started. -/
theorem exceeded_same (h : Counts rq) (p : Nat) (hthr : (rq.task p).dl.dl_throttled = false) :
    Same rq (rq.exceeded p) := by
  have hdeq := (h.dequeue_frame p).same
  have htask := congrFun (h.dequeue_frame p).task p
  rcases exceeded_cases h p with ⟨heq, hstart⟩ | ⟨-, ⟨heq, -⟩ | heq⟩
  · have hfree : (rq.task p).dl.dl_boosted ≠ true := by
      intro hboosted
      simp [starts, start_dl_timer, hboosted] at hstart
    rw [heq]
    refine (hdeq.trans ?_).trans (resched_same _)
    refine .of_update rfl rfl rfl rfl rfl rfl rfl rfl rfl rfl rfl rfl rfl rfl
      ⟨fun harmed => ⟨fun _ => rfl, fun _ => ?_⟩, fun _ => rfl, fun _ => id,
        fun _ hboosted => absurd ?_ hfree⟩ id id id
    · rw [htask] at harmed ⊢
      exact (Bool.or_eq_false_iff.mp (harmed.inactive hthr)).2
    · exact (hdeq.boosted p).symm.trans hboosted
  · rw [heq]
    exact hdeq.trans (enqueue_task_same _ p true)
  · rw [heq]
    exact (hdeq.trans (enqueue_task_same _ p true)).trans (resched_same _)

theorem charged_queue (rq : Rq) (p : Nat) : (rq.charged p).queue = rq.queue := by
  obtain ⟨_, _, heq⟩ := charged_eq rq p
  rw [heq]
  rfl

theorem Inv.update_curr (h : Inv NR_CPUS m X rq) : Inv NR_CPUS m X rq.update_curr_dl := by
  rcases update_curr_cases rq with ⟨heq, -⟩ | ⟨p, -, -, hp, heq⟩
  · rw [heq]
    exact h
  · rw [heq]
    split
    · exact (h.charged p).exceeded (by rw [charged_queue]; exact hp)
    · exact h.charged p

theorem update_curr_same (h : Inv NR_CPUS m X rq) : Same rq rq.update_curr_dl := by
  rcases update_curr_cases rq with ⟨heq, -⟩ | ⟨p, -, -, hp, heq⟩
  · rw [heq]
    exact .rfl
  · rw [heq]
    split
    · refine (charged_same rq p).trans (exceeded_same (h.charged p).counts p ?_)
      exact ((h.charged p).ready p (by rwa [charged_queue])).2.1
    · exact charged_same rq p

/-! ## The other tasks -/

theorem resched_task (rq : Rq) : rq.resched.task = rq.task := rfl

theorem enqueue_task_task_ne {q : Nat} (hq : q ≠ p) (b : Bool) :
    (rq.enqueue_task_dl p b).task q = rq.task q := by
  cases hthr : (rq.task p).dl.dl_throttled with
  | true => rw [enqueue_task_throttled b hthr]
  | false => exact (enqueue_task_queued b hthr).task_ne hq

theorem exceeded_task_ne (h : Counts rq) {q : Nat} (hq : q ≠ p) :
    (rq.exceeded p).task q = rq.task q := by
  have hframe := h.dequeue_frame p
  rcases exceeded_cases h p with ⟨heq, -⟩ | ⟨-, ⟨heq, -⟩ | heq⟩
  · rw [heq, resched_task, setDlSe_task_ne hq, hframe.task]
  · rw [heq, enqueue_task_task_ne hq, hframe.task]
  · rw [heq, resched_task, enqueue_task_task_ne hq, hframe.task]

theorem Inv.dequeue_task (h : Inv NR_CPUS m X rq) (p : Nat) :
    Inv NR_CPUS m (insert p X) (rq.dequeue_task_dl p) ∧ p ∉ (rq.dequeue_task_dl p).queue :=
  ⟨(h.update_curr.dequeue p).nr_running _, h.update_curr.counts.not_mem_dequeue p⟩

theorem dequeue_task_same (h : Inv NR_CPUS m X rq) (p : Nat) :
    Same rq (rq.dequeue_task_dl p) := by
  have hsame := (update_curr_same h).trans (h.update_curr.counts.dequeue_frame p).same
  exact ⟨hsame.cpu, hsame.clock, hsame.clock_task, hsame.starts, hsame.curr, hsame.stop,
    hsame.on_rq, hsame.dl_prio, hsame.dl_policy, hsame.cpus, hsame.pi_top, hsame.own,
    hsame.boosted, hsame.tame, hsame.ok, hsame.unwrapped, hsame.resched⟩

theorem Inv.dequeue_pushable (h : Inv NR_CPUS m X rq) (p : Nat) :
    Inv NR_CPUS m X (rq.dequeue_pushable_dl_task p) ∧
      Frame rq (rq.dequeue_pushable_dl_task p) ∧
      (rq.dequeue_pushable_dl_task p).queue = rq.queue ∧
      (rq.dequeue_pushable_dl_task p).pushq = rq.pushq.erase p := by
  have hcounts := h.counts.dequeue_pushable p
  have horder := fun hw => (h.order hw).dequeue_pushable h.counts.pshape p
  obtain ⟨t, -, hinorder, heq⟩ := dequeue_pushable_eq rq h.counts.pshape p
  rw [heq] at hcounts horder ⊢
  refine ⟨⟨hcounts, horder, h.ready, h.curr_on, ?_, h.policy, h.lost⟩,
    ⟨rfl, rfl, rfl, rfl, rfl, rfl, rfl, rfl, rfl, rfl⟩, rfl, hinorder⟩
  intro q hX hq hpush
  have hpush : q ∈ t.root.inorder := hpush
  rw [hinorder] at hpush
  exact h.curr_push q hX hq (List.mem_of_mem_erase hpush)

/-- The running task is put back, and is among the pushable ones again. -/
theorem Inv.put_prev (h : Inv NR_CPUS m X rq) (hpush : p ∉ rq.update_curr_dl.pushq) :
    Inv NR_CPUS m (insert p X) (rq.put_prev_task_dl p) := by
  have hmono := h.update_curr.mono (Set.subset_insert p X)
  unfold put_prev_task_dl
  simp only
  split
  · rename_i hp
    exact hmono.enqueue_pushable hp.1 hp.2 hpush fun hX => absurd (Set.mem_insert p X) hX
  · exact hmono

theorem put_prev_frame (rq : Rq) (p : Nat) :
    (rq.put_prev_task_dl p).task = rq.update_curr_dl.task ∧
      (rq.put_prev_task_dl p).queue = rq.update_curr_dl.queue ∧
      (rq.put_prev_task_dl p).curr = rq.update_curr_dl.curr ∧
      ((rq.put_prev_task_dl p).bug = false → rq.update_curr_dl.bug = false) := by
  unfold put_prev_task_dl
  simp only
  split
  · exact ⟨rfl, rfl, rfl, fun hb => (Bool.or_eq_false_iff.mp hb).1⟩
  · exact ⟨rfl, rfl, rfl, id⟩

/-- Another task runs. -/
theorem Inv.switch (h : Inv NR_CPUS m X rq) {curr : Option Nat} (stop : Bool)
    (hcurr : ∀ q, curr = some q → (rq.task q).on_rq = true ∧ q ∉ rq.pushq) :
    Inv NR_CPUS m X { rq with curr := curr, curr_stop := stop, need_resched := false } :=
  ⟨⟨h.counts.shape, h.counts.pshape, h.counts.running, h.counts.total, h.counts.migratory,
      h.counts.overloaded, h.counts.push⟩,
    fun hw => ⟨⟨(h.order hw).curr, (h.order hw).next, (h.order hw).cpudl⟩, (h.order hw).cpu_lt,
      (h.order hw).range, (h.order hw).sorted, (h.order hw).psorted⟩,
    h.ready, fun q _ hq => (hcurr q hq).1, fun q _ hq => (hcurr q hq).2, h.policy, h.lost⟩

/-- What is picked: the first in the tree, or without any, nothing. -/
theorem Inv.pick_next (h : Inv NR_CPUS m X rq) :
    (rq.queue = [] ∧ rq.pick_next_task_dl = (none, rq)) ∨
    ∃ next rest rq', rq.queue = next :: rest ∧ rq.pick_next_task_dl = (some next, rq') ∧
      Inv NR_CPUS m X rq' ∧ rq'.queue = rq.queue ∧ next ∉ rq'.pushq ∧ Same rq rq' ∧
      (∀ q, (rq'.task q).dl = (rq.task q).dl) ∧ rq'.bug = rq.bug := by
  have hlen := h.counts.running
  unfold pick_next_task_dl
  cases hq : rq.queue with
  | nil =>
      rw [hq, List.length_nil] at hlen
      rw [if_pos hlen]
      exact .inl ⟨rfl, rfl⟩
  | cons next rest =>
      have hleft : rq.rb.leftmost = some next := by
        rw [h.counts.shape.first, show rq.rb.root.inorder = next :: rest from hq]
        rfl
      rw [hq, List.length_cons] at hlen
      rw [if_neg (by omega), hleft]
      have hset : Inv NR_CPUS m X
          (rq.setTask next fun t => { t with exec_start := rq.clock_task }) :=
        h.setTask ⟨rfl, rfl, rfl, rfl, rfl⟩ (fun _ => rfl) fun _ => rfl
      obtain ⟨hdeq, hframe, hqueue, hpushq⟩ := hset.dequeue_pushable next
      refine .inr ⟨next, rest, _, rfl, rfl, hdeq, hqueue.trans hq, ?_, ?_, ?_, hframe.bug⟩
      · rw [hpushq]
        exact hset.counts.pshape.nodup.not_mem_erase
      · refine Same.trans ?_ hframe.same
        exact .of_update rfl rfl rfl rfl rfl rfl rfl rfl rfl rfl rfl rfl rfl rfl .rfl id id id
      · intro q
        rw [hframe.task]
        by_cases hqn : q = next
        · subst hqn
          rw [setTask_task_self]
        · rw [setTask_task_ne hqn]

end Rq

end KernelLab.Deadline
