/-
# `KernelLab.Deadline.Entity` — budget and deadline of one task

A `SCHED_DEADLINE` task reserves `dl_runtime` nanoseconds in every `dl_period`, to be had
within `dl_deadline`.  Its entity carries what is left of the current instance, `runtime`,
and the absolute `deadline` it is ordered by.

    setup_new_dl_entity    a new instance: the full runtime, due in dl_deadline
    replenish_dl_entity    one period later and one runtime more, until some is left
    update_dl_entity       on a wakeup: a new instance, if the deadline is past or
                           what is left is too much for the time to it
    start_dl_timer         the replenishment timer, unless the deadline is past
    dl_runtime_exceeded    is the budget used up, or the deadline past?

The clock and the deadlines are `u64`, the runtime `s64`.  A reservation is a value of
`Reservation`: what `__checkparam_dl` accepts, with a period below `2 ^ 63`.  The check
compares as `s64` and lets larger values through, some of which the loop of
`replenish_dl_entity` never gets past; they are left out.
-/
import KernelLab.Lib.CInt
import KernelLab.Lib.Serial

namespace KernelLab.Deadline

open KernelLab.CInt KernelLab.Serial

def DL_SCALE : Nat := 10

/-- `dl_runtime`, `dl_deadline` and `dl_period` of a task with this policy. -/
structure Reservation where
  dl_runtime : Nat
  dl_deadline : Nat
  dl_period : Nat
  runtime_ge : 2 ^ DL_SCALE ≤ dl_runtime
  runtime_le : dl_runtime ≤ dl_deadline
  deadline_le : dl_deadline ≤ dl_period
  period_lt : dl_period < 2 ^ 63

theorem Reservation.runtime_pos (R : Reservation) : 0 < R.dl_runtime :=
  (Nat.two_pow_pos DL_SCALE).trans_le R.runtime_ge

/-- The three parameters of a task: its reservation, or 0 if it never had this policy. -/
abbrev Params := Option Reservation

namespace Params

def dl_runtime (pi_se : Params) : Nat := pi_se.elim 0 Reservation.dl_runtime

def dl_deadline (pi_se : Params) : Nat := pi_se.elim 0 Reservation.dl_deadline

def dl_period (pi_se : Params) : Nat := pi_se.elim 0 Reservation.dl_period

@[simp] theorem dl_runtime_some (R : Reservation) :
    dl_runtime (some R) = R.dl_runtime := rfl

end Params

/-- `struct sched_dl_entity`.  Of the hrtimer: `dl_timer` says that it is queued, `handler`
that its handler has been called, and waits for the lock of the runqueue. -/
structure Entity where
  own : Params
  runtime : Int
  deadline : Nat
  dl_throttled : Bool
  dl_new : Bool
  dl_boosted : Bool
  dl_timer : Bool
  handler : Bool

/-- `hrtimer_active` -/
def Entity.active (dl_se : Entity) : Bool := dl_se.dl_timer || dl_se.handler

/-- While the handler waits, nothing is cancelled. -/
def hrtimer_try_to_cancel (dl_se : Entity) : Entity :=
  { dl_se with dl_timer := dl_se.dl_timer && dl_se.handler }

/-- `a + b` in `u64` -/
def addU64 (a b : Nat) : Nat := (a + b) % 2 ^ 64

/-- The full runtime, due `dl_deadline` from now. -/
def renew (rq_clock : Nat) (pi_se : Params) (dl_se : Entity) : Entity :=
  { dl_se with deadline := addU64 rq_clock pi_se.dl_deadline, runtime := pi_se.dl_runtime }

def setup_new_dl_entity (rq_clock : Nat) (pi_se : Params) (dl_se : Entity) : Entity :=
  { renew rq_clock pi_se dl_se with dl_new := false }

/-- `while (dl_se->runtime <= 0) { deadline += dl_period; runtime += dl_runtime; }`; the
sum of a runtime that is not positive and one below `2 ^ 63` is in range. -/
def postpone (pi_se : Reservation) (dl_se : Entity) : Entity :=
  if dl_se.runtime ≤ 0 then
    postpone pi_se
      { dl_se with
        deadline := addU64 dl_se.deadline pi_se.dl_period
        runtime := dl_se.runtime + pi_se.dl_runtime }
  else dl_se
termination_by (1 - dl_se.runtime).toNat
decreasing_by
  have := pi_se.runtime_pos
  omega

/-- A task without a reservation that is boosted takes the inherited one in full. -/
def inherit (rq_clock : Nat) (pi_se : Reservation) (dl_se : Entity) : Entity :=
  if dl_se.own.isNone then renew rq_clock pi_se dl_se else dl_se

def replenish_dl_entity (rq_clock : Nat) (pi_se : Reservation) (dl_se : Entity) : Entity :=
  let dl_se := postpone pi_se (inherit rq_clock pi_se dl_se)
  if before dl_se.deadline rq_clock then renew rq_clock pi_se dl_se else dl_se

/-- `runtime / (deadline - t) > dl_runtime / dl_period`, scaled down and multiplied out. -/
def dl_entity_overflow (pi_se : Params) (dl_se : Entity) (t : Nat) : Bool :=
  let left := toULong ((pi_se.dl_period >>> DL_SCALE : Nat) * (dl_se.runtime >>> DL_SCALE))
  let right := (toULong ((dl_se.deadline : Int) - t)).toNat >>> DL_SCALE *
    (pi_se.dl_runtime >>> DL_SCALE) % 2 ^ 64
  decide (before right left.toNat)

def update_dl_entity (rq_clock : Nat) (pi_se : Params) (dl_se : Entity) : Entity :=
  if dl_se.dl_new then setup_new_dl_entity rq_clock pi_se dl_se
  else if before dl_se.deadline rq_clock ∨ dl_entity_overflow pi_se dl_se rq_clock then
    renew rq_clock pi_se dl_se
  else dl_se

/-- `ktime_us_delta` of the kernel, the microseconds from one time to another.  How it rounds
is left open; what is needed of it is that it is not negative for a time to come. -/
structure Ktime where
  us_delta : Int → Int → Int
  nonneg : ∀ {later earlier : Int}, earlier ≤ later → 0 ≤ us_delta later earlier

/-- Whether the timer is started, which makes it active.  It is to fire at the deadline;
`hrtimer` reads another clock, `now`, than the runqueue. -/
def start_dl_timer (ktime : Ktime) (rq_clock now : Nat) (dl_se : Entity) (boosted : Bool) :
    Bool :=
  let act := toLLong dl_se.deadline
  let delta := toLLong ((now : Int) - rq_clock)
  let act := toLLong (act + delta)
  !boosted && decide (0 ≤ ktime.us_delta act now)

/-- The answer, and the entity with the time past its deadline taken off the next
instance's budget. -/
def dl_runtime_exceeded (rq_clock : Nat) (dl_se : Entity) : Bool × Entity :=
  let dmiss := decide (before dl_se.deadline rq_clock)
  let rorun := decide (dl_se.runtime ≤ 0)
  if !rorun && !dmiss then (false, dl_se)
  else if dmiss then
    (true, { dl_se with
      runtime := toLLong
        ((if rorun then dl_se.runtime else 0) - ((rq_clock : Int) - dl_se.deadline)) })
  else (true, dl_se)

/-- `dl_entity_preempt` -/
def dl_entity_preempt (a b : Entity) : Prop := before a.deadline b.deadline

instance decPreempt (a b : Entity) : Decidable (dl_entity_preempt a b) :=
  inferInstanceAs (Decidable (before a.deadline b.deadline))

/-! ## What is not touched -/

/-- Only `runtime`, `deadline` and `dl_new` differ. -/
structure SameFlags (a b : Entity) : Prop where
  own : b.own = a.own
  throttled : b.dl_throttled = a.dl_throttled
  boosted : b.dl_boosted = a.dl_boosted
  timer : b.dl_timer = a.dl_timer
  handler : b.handler = a.handler

theorem SameFlags.rfl {a : Entity} : SameFlags a a :=
  ⟨.refl _, .refl _, .refl _, .refl _, .refl _⟩

theorem SameFlags.trans {a b c : Entity} (hab : SameFlags a b) (hbc : SameFlags b c) :
    SameFlags a c :=
  ⟨hbc.own.trans hab.own, hbc.throttled.trans hab.throttled, hbc.boosted.trans hab.boosted,
    hbc.timer.trans hab.timer, hbc.handler.trans hab.handler⟩

/-- The timer is active only while the task is throttled, and its handler has not been called
while it is queued. -/
structure Entity.Armed (dl_se : Entity) : Prop where
  throttled : dl_se.active = true → dl_se.dl_throttled = true
  once : dl_se.dl_timer = true → dl_se.handler = false

instance decArmed (dl_se : Entity) : Decidable dl_se.Armed :=
  decidable_of_iff ((dl_se.active = true → dl_se.dl_throttled = true) ∧
    (dl_se.dl_timer = true → dl_se.handler = false)) ⟨fun h => ⟨h.1, h.2⟩, fun h => ⟨h.1, h.2⟩⟩

theorem Entity.Armed.inactive {dl_se : Entity} (h : dl_se.Armed)
    (hthr : dl_se.dl_throttled = false) : dl_se.active = false := by
  rw [← Bool.not_eq_true]
  intro hactive
  rw [h.throttled hactive] at hthr
  cases hthr

theorem SameFlags.armed {a b : Entity} (h : SameFlags a b) (ha : a.Armed) : b.Armed := by
  refine ⟨?_, ?_⟩
  · unfold Entity.active
    rw [h.timer, h.handler, h.throttled]
    exact ha.throttled
  · rw [h.timer, h.handler]
    exact ha.once

/-- A task is throttled with its timer active, or not at all; while it is throttled nobody
makes it new; and it is not throttled while it is boosted. -/
structure Tame (a b : Entity) : Prop where
  armed : a.Armed → b.Armed
  stays : a.dl_throttled = true → b.dl_throttled = true
  new : a.dl_throttled = true → a.dl_new = true → b.dl_new = true
  free : (a.dl_boosted = true → a.dl_throttled = false) → b.dl_boosted = true →
    b.dl_throttled = false

theorem Tame.rfl {a : Entity} : Tame a a := ⟨id, id, fun _ => id, id⟩

theorem Tame.trans {a b c : Entity} (hab : Tame a b) (hbc : Tame b c) : Tame a c :=
  ⟨fun h => hbc.armed (hab.armed h), fun h => hbc.stays (hab.stays h),
    fun h hnew => hbc.new (hab.stays h) (hab.new h hnew), fun h => hbc.free (hab.free h)⟩

theorem SameFlags.tame {a b : Entity} (h : SameFlags a b) (hthr : a.dl_throttled = false) :
    Tame a b := by
  refine ⟨h.armed, ?_, ?_, fun _ _ => h.throttled.trans hthr⟩
  · rw [h.throttled]
    exact id
  · rw [hthr]
    exact Bool.noConfusion

theorem renew_flags (rq_clock : Nat) (pi_se : Params) (dl_se : Entity) :
    SameFlags dl_se (renew rq_clock pi_se dl_se) :=
  ⟨rfl, rfl, rfl, rfl, rfl⟩

theorem postpone_flags (pi_se : Reservation) (dl_se : Entity) :
    SameFlags dl_se (postpone pi_se dl_se) := by
  fun_induction postpone pi_se dl_se with
  | case1 dl_se _ ih => exact ⟨ih.own, ih.throttled, ih.boosted, ih.timer, ih.handler⟩
  | case2 => exact .rfl

theorem replenish_flags (rq_clock : Nat) (pi_se : Reservation) (dl_se : Entity) :
    SameFlags dl_se (replenish_dl_entity rq_clock pi_se dl_se) := by
  have hfirst : SameFlags dl_se (inherit rq_clock pi_se dl_se) := by
    unfold inherit
    split
    · exact renew_flags ..
    · exact .rfl
  have hsecond := hfirst.trans (postpone_flags pi_se _)
  unfold replenish_dl_entity
  simp only
  split
  · exact hsecond.trans (renew_flags ..)
  · exact hsecond

theorem update_flags (rq_clock : Nat) (pi_se : Params) (dl_se : Entity) :
    SameFlags dl_se (update_dl_entity rq_clock pi_se dl_se) := by
  unfold update_dl_entity
  split
  · exact ⟨rfl, rfl, rfl, rfl, rfl⟩
  · split
    · exact renew_flags ..
    · exact .rfl

/-- The entity as it is queued: replenished, or brought up to date.  Without parameters there
is nothing to be replenished with, and `replenish_dl_entity` does not get past its first
line. -/
def refresh (rq_clock : Nat) (pi_se : Params) (ENQUEUE_REPLENISH : Bool) (dl_se : Entity) :
    Entity :=
  if !dl_se.dl_new && ENQUEUE_REPLENISH then
    match pi_se with
    | some R => replenish_dl_entity rq_clock R dl_se
    | none => dl_se
  else update_dl_entity rq_clock pi_se dl_se

theorem refresh_flags (rq_clock : Nat) (pi_se : Params) (ENQUEUE_REPLENISH : Bool)
    (dl_se : Entity) : SameFlags dl_se (refresh rq_clock pi_se ENQUEUE_REPLENISH dl_se) := by
  unfold refresh
  split
  · split
    · exact replenish_flags ..
    · exact .rfl
  · exact update_flags ..

/-- Whatever the answer, only the runtime may have changed. -/
theorem exceeded_eq (rq_clock : Nat) (dl_se : Entity) :
    ∃ runtime, (dl_runtime_exceeded rq_clock dl_se).2 = { dl_se with runtime := runtime } := by
  unfold dl_runtime_exceeded
  simp only
  split
  · exact ⟨_, rfl⟩
  · split
    · exact ⟨_, rfl⟩
    · exact ⟨_, rfl⟩

end KernelLab.Deadline
