/-
# `KernelLab.Deadline.Bandwidth` — admission control

A root domain lends out at most `bw` times the number of its CPUs, in units of `2 ^ -20` of
a CPU; `total_bw` is what is out.  A task borrows `dl_bw` when it gets the policy, and gives
it back when it gets another one or dies.

    __checkparam_dl        are the parameters in order?
    dl_overflow            is there enough?  if so, `total_bw` is brought up to date
    __setparam_dl          the task's `dl_bw`
    set_task_cpu_dl        a task takes its `dl_bw` along to another root domain
    task_dead_dl           it gives it back

## What is proved

In every run in which no request has a period of 0 or a parameter from `2 ^ 63` on, no task
gets the policy with the bandwidth it already has from elsewhere, and no task that is only
boosted is moved or dies with some, `total_bw` is what the tasks of the domain have, and is
within the limit (`bandwidth_accounted`).

The exceptions are real.  `dl_overflow` takes a period of 0 as it is, for a bandwidth of 0,
where `__setparam_dl` takes the deadline for it; and it takes a task that has the same
`dl_bw` for one that has been counted, though a task keeps it when it gets another policy,
and a child has its parent's.  Such a task is let in whatever the limit, and takes away from
`total_bw` what it never added, each time it does so (`uncounted_rounds`).
-/
import KernelLab.Deadline.Entity
import KernelLab.Lib.Run

namespace KernelLab.Deadline

open KernelLab.CInt

namespace Bandwidth

set_option linter.style.nameCheck false

def RUNTIME_INF : Nat := 2 ^ 64 - 1

def to_ratio (period runtime : Nat) : Nat :=
  if runtime = RUNTIME_INF then 2 ^ 20
  else if period = 0 then 0
  else runtime * 2 ^ 20 % 2 ^ 64 / period

/-- Of `struct sched_param2` -/
structure SchedParam2 where
  sched_runtime : Nat
  sched_deadline : Nat
  sched_period : Nat

def __checkparam_dl (prm : SchedParam2) : Bool :=
  decide (prm.sched_deadline ≠ 0 ∧
    (prm.sched_period = 0 ∨ 0 ≤ toLLong ((prm.sched_period : Int) - prm.sched_deadline)) ∧
    0 ≤ toLLong ((prm.sched_deadline : Int) - prm.sched_runtime) ∧
    2 <<< (DL_SCALE - 1) ≤ prm.sched_runtime)

/-- `struct dl_bw` -/
structure DlBw where
  bw : Nat
  total_bw : Nat

/-- `a - b` in `u64` -/
def subU64 (a b : Nat) : Nat := (a + (2 ^ 64 - b)) % 2 ^ 64

def __dl_clear (dl_b : DlBw) (tsk_bw : Nat) : DlBw :=
  { dl_b with total_bw := subU64 dl_b.total_bw tsk_bw }

def __dl_add (dl_b : DlBw) (tsk_bw : Nat) : DlBw :=
  { dl_b with total_bw := addU64 dl_b.total_bw tsk_bw }

def __dl_overflow (dl_b : DlBw) (cpus old_bw new_bw : Nat) : Bool :=
  decide (dl_b.bw ≠ 2 ^ 64 - 1 ∧
    dl_b.bw * cpus % 2 ^ 64 < addU64 (subU64 dl_b.total_bw old_bw) new_bw)

/-- What of a task counts here; `rd` is the root domain of its CPU. -/
structure Account where
  dl_bw : Nat
  dl_policy : Bool
  rd : Nat

/-- `param2` is there if the new policy is this one.  The answer is the account of the root
domain, or none if there is not enough. -/
def dl_overflow (dl_b : DlBw) (cpus : Nat) (t : Account) (param2 : Option SchedParam2) :
    Option DlBw :=
  let new_bw := match param2 with
    | some prm => to_ratio prm.sched_period prm.sched_runtime
    | none => 0
  if new_bw = t.dl_bw then some dl_b
  else if param2.isSome ∧ ¬ t.dl_policy ∧ ¬ __dl_overflow dl_b cpus 0 new_bw then
    some (__dl_add dl_b new_bw)
  else if param2.isSome ∧ t.dl_policy ∧ ¬ __dl_overflow dl_b cpus t.dl_bw new_bw then
    some (__dl_add (__dl_clear dl_b t.dl_bw) new_bw)
  else if param2.isNone ∧ t.dl_policy then some (__dl_clear dl_b t.dl_bw)
  else none

/-- The bandwidth of the task itself: without a period, the deadline is the period. -/
def __setparam_dl (prm : SchedParam2) (t : Account) : Account :=
  let dl_period := if prm.sched_period ≠ 0 then prm.sched_period else prm.sched_deadline
  { t with dl_bw := to_ratio dl_period prm.sched_runtime, dl_policy := true }

structure System where
  dl_bw_of : Nat → DlBw
  span_weight : Nat → Nat
  task : Nat → Account
  dl_bandwidth_enabled : Bool

inductive Errno where
  | EINVAL
  | EPERM
  | EBUSY
  | EAGAIN
  deriving DecidableEq

def System.domain (s : System) (p : Nat) : DlBw := s.dl_bw_of (s.task p).rd

def System.set (s : System) (p : Nat) (dl_b : DlBw) (t : Account) : System :=
  { s with
    dl_bw_of := Function.update s.dl_bw_of (s.task p).rd dl_b
    task := Function.update s.task p t }

/-- To this policy; `spans` says that the task may run on every CPU of its root domain. -/
def setDeadline (s : System) (p : Nat) (prm : SchedParam2) (user spans : Bool) :
    Except Errno System :=
  if !__checkparam_dl prm then .error .EINVAL
  else if user ∧ s.dl_bandwidth_enabled ∧ (¬ spans ∨ (s.domain p).bw = 0) then .error .EPERM
  else
    match dl_overflow (s.domain p) (s.span_weight (s.task p).rd) (s.task p) (some prm) with
    | none => .error .EBUSY
    | some dl_b => .ok (s.set p dl_b (__setparam_dl prm (s.task p)))

/-- To another one.  The bandwidth in the task stays as it is. -/
def setOther (s : System) (p : Nat) (boosted : Bool) : Except Errno System :=
  let account := if (s.task p).dl_policy ∨ boosted then
      dl_overflow (s.domain p) (s.span_weight (s.task p).rd) (s.task p) none
    else some (s.domain p)
  match account with
  | none => .error .EBUSY
  | some dl_b => .ok (s.set p dl_b { s.task p with dl_policy := false })

/-- `set_task_cpu_dl`, for a task whose priority is of this class. -/
def set_task_cpu_dl (s : System) (p rd : Nat) : Option System :=
  if rd = (s.task p).rd then some s
  else if s.dl_bandwidth_enabled ∧
      (s.dl_bw_of rd).bw * s.span_weight rd % 2 ^ 64 <
        addU64 (s.dl_bw_of rd).total_bw (s.task p).dl_bw then
    none
  else
    some { s with
      dl_bw_of := Function.update (Function.update s.dl_bw_of (s.task p).rd
        (__dl_clear (s.domain p) (s.task p).dl_bw)) rd
        (__dl_add (s.dl_bw_of rd) (s.task p).dl_bw)
      task := Function.update s.task p { s.task p with rd := rd } }

/-- Another CPU, perhaps of another root domain. -/
def migrate (s : System) (p rd : Nat) (boosted : Bool) : System :=
  if (s.task p).dl_policy ∨ boosted then (set_task_cpu_dl s p rd).getD s
  else { s with task := Function.update s.task p { s.task p with rd := rd } }

/-- The task is gone, and is no longer one with the policy. -/
def task_dead_dl (s : System) (p : Nat) : System :=
  s.set p (__dl_clear (s.domain p) (s.task p).dl_bw) { s.task p with dl_policy := false }

/-- `finish_task_switch`, which calls `task_dead` of the task's class. -/
def dead (s : System) (p : Nat) (boosted : Bool) : System :=
  if (s.task p).dl_policy ∨ boosted then task_dead_dl s p else s

/-- The child is a copy of its parent; one with this policy has to give it up on the way. -/
def sched_fork (s : System) (p child : Nat) (reset_on_fork : Bool) : Except Errno System :=
  if (s.task p).dl_policy ∧ ¬ reset_on_fork then .error .EAGAIN
  else .ok { s with task := Function.update s.task child { s.task p with dl_policy := false } }

/-! ## Runs -/

inductive Event where
  | deadline (p : Nat) (prm : SchedParam2) (user spans : Bool)
  | other (p : Nat) (boosted : Bool)
  | migrate (p rd : Nat) (boosted : Bool)
  | dead (p : Nat) (boosted : Bool)
  | fork (p child : Nat) (reset_on_fork : Bool)

/-- A request that fails changes nothing. -/
def orSame (s : System) : Except Errno System → System
  | .ok s' => s'
  | .error _ => s

/-- The tasks are those of `T`; a child is none that has the policy. -/
def step (T : Finset Nat) (s : System) : Event → Option System
  | .deadline p prm user spans =>
      if p ∈ T then some (orSame s (setDeadline s p prm user spans)) else none
  | .other p boosted => if p ∈ T then some (orSame s (setOther s p boosted)) else none
  | .migrate p rd boosted => if p ∈ T then some (migrate s p rd boosted) else none
  | .dead p boosted => if p ∈ T then some (dead s p boosted) else none
  | .fork p child reset_on_fork =>
      if child ∈ T ∧ (s.task child).dl_policy = false then
        some (orSame s (sched_fork s p child reset_on_fork))
      else none

/-! ## The account -/

/-- What the task has of the bandwidth of the root domain `rd`. -/
def share (t : Account) (rd : Nat) : Nat := if t.dl_policy ∧ t.rd = rd then t.dl_bw else 0

def allocated (T : Finset Nat) (s : System) (rd : Nat) : Nat := ∑ p ∈ T, share (s.task p) rd

/-- The limits are set, and far enough below `2 ^ 64`. -/
structure Limited (s : System) : Prop where
  enabled : s.dl_bandwidth_enabled = true
  bw : ∀ rd, (s.dl_bw_of rd).bw ≠ 2 ^ 64 - 1
  fits : ∀ rd, (s.dl_bw_of rd).bw * s.span_weight rd + 2 ^ 20 < 2 ^ 64

structure Accounted (T : Finset Nat) (s : System) : Prop extends Limited s where
  total : ∀ rd, (s.dl_bw_of rd).total_bw = allocated T s rd
  cap : ∀ rd, (s.dl_bw_of rd).total_bw ≤ (s.dl_bw_of rd).bw * s.span_weight rd
  unit : ∀ p ∈ T, (s.task p).dl_policy = true → (s.task p).dl_bw ≤ 2 ^ 20

/-- The event is none of the exceptions. -/
def Regular (s : System) : Event → Prop
  | .deadline p prm _ _ => 0 < prm.sched_period ∧ prm.sched_period < 2 ^ 63 ∧
      prm.sched_deadline < 2 ^ 63 ∧ prm.sched_runtime < 2 ^ 63 ∧
      ((s.task p).dl_policy = false →
        to_ratio prm.sched_period prm.sched_runtime ≠ (s.task p).dl_bw)
  | .migrate p _ boosted | .dead p boosted =>
      boosted = true → (s.task p).dl_policy = true ∨ (s.task p).dl_bw = 0
  | _ => True

instance decRegular (s : System) : (e : Event) → Decidable (Regular s e)
  | .deadline p prm _ _ => inferInstanceAs (Decidable (0 < prm.sched_period ∧
      prm.sched_period < 2 ^ 63 ∧ prm.sched_deadline < 2 ^ 63 ∧ prm.sched_runtime < 2 ^ 63 ∧
      ((s.task p).dl_policy = false →
        to_ratio prm.sched_period prm.sched_runtime ≠ (s.task p).dl_bw)))
  | .migrate p _ boosted | .dead p boosted => inferInstanceAs
      (Decidable (boosted = true → (s.task p).dl_policy = true ∨ (s.task p).dl_bw = 0))
  | .other _ _ | .fork _ _ _ => .isTrue trivial

/-! ## Ratios -/

theorem to_ratio_le {period runtime : Nat} (hle : runtime ≤ period) (hlt : runtime < 2 ^ 63) :
    to_ratio period runtime ≤ 2 ^ 20 := by
  unfold to_ratio RUNTIME_INF
  rw [if_neg (by omega)]
  split
  · exact Nat.zero_le _
  · rename_i hp
    refine Nat.div_le_of_le_mul ?_
    calc runtime * 2 ^ 20 % 2 ^ 64 ≤ runtime * 2 ^ 20 := Nat.mod_le _ _
      _ ≤ period * 2 ^ 20 := Nat.mul_le_mul_right _ hle

/-- Below `2 ^ 63`, the check means what it says. -/
theorem runtime_le_of_checkparam {prm : SchedParam2} (h : __checkparam_dl prm = true)
    (hp : 0 < prm.sched_period) (hp' : prm.sched_period < 2 ^ 63)
    (hd : prm.sched_deadline < 2 ^ 63) (hr : prm.sched_runtime < 2 ^ 63) :
    prm.sched_runtime ≤ prm.sched_period := by
  unfold __checkparam_dl toLLong at h
  obtain ⟨-, hperiod, hdeadline, -⟩ := of_decide_eq_true h
  omega

theorem addU64_of_lt {a b : Nat} (h : a + b < 2 ^ 64) : addU64 a b = a + b :=
  Nat.mod_eq_of_lt h

theorem subU64_of_le {a b : Nat} (h : b ≤ a) (ha : a < 2 ^ 64) : subU64 a b = a - b := by
  unfold subU64
  omega

/-! ## One task changes -/

section Change

variable {T : Finset Nat} {s : System} {p : Nat}

theorem allocated_update (hp : p ∈ T) (t : Account) (rd : Nat) :
    allocated T { s with task := Function.update s.task p t } rd + share (s.task p) rd =
      allocated T s rd + share t rd := by
  unfold allocated
  have hnew : ∑ q ∈ T, share (Function.update s.task p t q) rd =
      share t rd + ∑ q ∈ T.erase p, share (s.task q) rd := by
    rw [← Finset.add_sum_erase T _ hp, Function.update_self]
    congr 1
    refine Finset.sum_congr rfl fun q hq => ?_
    rw [Function.update_of_ne (Finset.ne_of_mem_erase hq)]
  have hold := Finset.add_sum_erase T (fun q => share (s.task q) rd) hp
  simp only [hnew]
  omega

theorem share_le_allocated (hp : p ∈ T) (rd : Nat) : share (s.task p) rd ≤ allocated T s rd :=
  Finset.single_le_sum (f := fun q => share (s.task q) rd) (fun _ _ => Nat.zero_le _) hp

theorem share_of_ne {t : Account} {rd : Nat} (h : t.rd ≠ rd) : share t rd = 0 :=
  if_neg fun hh => h hh.2

theorem share_of_no_policy {t : Account} (h : t.dl_policy = false) (rd : Nat) :
    share t rd = 0 :=
  if_neg fun hh => by simp [h] at hh

theorem share_of_policy {t : Account} (h : t.dl_policy = true) : share t t.rd = t.dl_bw :=
  if_pos ⟨h, rfl⟩

/-- The account of every root domain changes by what the task has of it. -/
theorem Accounted.change {f : Nat → DlBw} {t : Account} (h : Accounted T s) (hp : p ∈ T)
    (hbw : ∀ rd, (f rd).bw = (s.dl_bw_of rd).bw)
    (htotal : ∀ rd, (f rd).total_bw + share (s.task p) rd =
      (s.dl_bw_of rd).total_bw + share t rd)
    (hcap : ∀ rd, (f rd).total_bw ≤ (s.dl_bw_of rd).bw * s.span_weight rd)
    (hunit : t.dl_policy = true → t.dl_bw ≤ 2 ^ 20) :
    Accounted T { s with dl_bw_of := f, task := Function.update s.task p t } where
  enabled := h.enabled
  bw rd := by
    rw [hbw]
    exact h.bw rd
  fits rd := by
    rw [hbw]
    exact h.fits rd
  total rd := by
    have hsum := allocated_update (s := s) hp t rd
    have hrd := htotal rd
    rw [h.total rd] at hrd
    show (f rd).total_bw =
      allocated T { s with task := Function.update s.task p t } rd
    omega
  cap rd := by
    rw [hbw]
    exact hcap rd
  unit q hq := by
    rcases eq_or_ne q p with rfl | hne
    · simpa using hunit
    · simpa [hne] using h.unit q hq

/-- Within its root domain. -/
theorem Accounted.set {dl_b : DlBw} {t : Account} (h : Accounted T s) (hp : p ∈ T)
    (hrd : t.rd = (s.task p).rd) (hbw : dl_b.bw = (s.domain p).bw)
    (htotal : dl_b.total_bw + share (s.task p) (s.task p).rd =
      (s.domain p).total_bw + share t (s.task p).rd)
    (hcap : dl_b.total_bw ≤ (s.domain p).bw * s.span_weight (s.task p).rd)
    (hunit : t.dl_policy = true → t.dl_bw ≤ 2 ^ 20) :
    Accounted T (s.set p dl_b t) := by
  refine h.change hp (fun rd => ?_) (fun rd => ?_) (fun rd => ?_) hunit
  · rcases eq_or_ne rd (s.task p).rd with rfl | hne
    · rw [Function.update_self]
      exact hbw
    · rw [Function.update_of_ne hne]
  · rcases eq_or_ne rd (s.task p).rd with rfl | hne
    · rw [Function.update_self]
      exact htotal
    · rw [Function.update_of_ne hne, share_of_ne hne.symm, share_of_ne (hrd ▸ hne.symm)]
  · rcases eq_or_ne rd (s.task p).rd with rfl | hne
    · rw [Function.update_self]
      exact hcap
    · rw [Function.update_of_ne hne]
      exact h.cap rd

/-- The task changes without the policy. -/
theorem Accounted.idle {t : Account} (h : Accounted T s) (hp : p ∈ T)
    (hpol : (s.task p).dl_policy = false) (ht : t.dl_policy = false) :
    Accounted T { s with task := Function.update s.task p t } :=
  h.change hp (fun _ => rfl) (fun rd => by rw [share_of_no_policy hpol, share_of_no_policy ht])
    h.cap (fun htrue => by simp [ht] at htrue)

end Change

/-! ## Every event keeps the account -/

/-- An account within its limit, which is far enough below `2 ^ 64`, with what `t` has. -/
structure DlBw.Holds (b : DlBw) (cpus : Nat) (t : Account) : Prop where
  bw : b.bw ≠ 2 ^ 64 - 1
  fits : b.bw * cpus + 2 ^ 20 < 2 ^ 64
  cap : b.total_bw ≤ b.bw * cpus
  share : share t t.rd ≤ b.total_bw

theorem Accounted.holds {T : Finset Nat} {s : System} {p : Nat} (h : Accounted T s)
    (hp : p ∈ T) : (s.domain p).Holds (s.span_weight (s.task p).rd) (s.task p) where
  bw := h.bw _
  fits := h.fits _
  cap := h.cap _
  share := by
    unfold System.domain
    rw [h.total]
    exact share_le_allocated hp _

section Overflow

variable {b b' : DlBw} {cpus : Nat} {t : Account}

/-- What is asked for is granted if the limit is not exceeded then. -/
theorem __dl_overflow_eq_false {old_bw new_bw : Nat} (h : b.Holds cpus t)
    (hold : old_bw ≤ b.total_bw) (hnew : new_bw ≤ 2 ^ 20)
    (hover : __dl_overflow b cpus old_bw new_bw = false) :
    addU64 (subU64 b.total_bw old_bw) new_bw + old_bw = b.total_bw + new_bw ∧
      addU64 (subU64 b.total_bw old_bw) new_bw ≤ b.bw * cpus := by
  have hfits := h.fits
  have hcap := h.cap
  have hnot := of_decide_eq_false hover
  rw [Nat.mod_eq_of_lt (by omega)] at hnot
  rw [subU64_of_le hold (by omega), addU64_of_lt (by omega)] at hnot ⊢
  have hle : ¬ b.bw * cpus < b.total_bw - old_bw + new_bw := fun hlt => hnot ⟨h.bw, hlt⟩
  omega

/-- A task that enters or stays. -/
theorem dl_overflow_deadline {prm : SchedParam2} (h : b.Holds cpus t)
    (hle : to_ratio prm.sched_period prm.sched_runtime ≤ 2 ^ 20)
    (hne : t.dl_policy = false → to_ratio prm.sched_period prm.sched_runtime ≠ t.dl_bw)
    (hsome : dl_overflow b cpus t (some prm) = some b') :
    b'.bw = b.bw ∧
      b'.total_bw + share t t.rd =
        b.total_bw + to_ratio prm.sched_period prm.sched_runtime ∧
      b'.total_bw ≤ b.bw * cpus := by
  have hfits := h.fits
  have hcap := h.cap
  have hshare := h.share
  simp only [dl_overflow] at hsome
  generalize to_ratio prm.sched_period prm.sched_runtime = new_bw at hle hne hsome
  cases hpol : t.dl_policy with
  | false =>
      simp only [hpol, if_neg (hne hpol), Option.isSome_some, Option.isNone_some, true_and,
        Bool.false_eq_true, not_false_eq_true, false_and, if_false, Bool.not_eq_true] at hsome
      obtain ⟨hover, rfl⟩ := Run.accepted hsome
      obtain ⟨hsum, hle'⟩ := __dl_overflow_eq_false h (Nat.zero_le _) hle hover
      rw [subU64_of_le (Nat.zero_le _) (by omega), Nat.sub_zero] at hsum hle'
      rw [share_of_no_policy hpol]
      exact ⟨rfl, hsum, hle'⟩
  | true =>
      rw [share_of_policy hpol] at hshare ⊢
      by_cases heq : new_bw = t.dl_bw
      · simp only [heq, if_true, Option.some.injEq] at hsome
        subst hsome
        exact ⟨rfl, by rw [heq], hcap⟩
      · simp only [hpol, if_neg heq, Option.isSome_some, Option.isNone_some, true_and,
          Bool.false_eq_true, not_true_eq_false, false_and, if_false, Bool.not_eq_true] at hsome
        obtain ⟨hover, rfl⟩ := Run.accepted hsome
        obtain ⟨hsum, hle'⟩ := __dl_overflow_eq_false h hshare hle hover
        exact ⟨rfl, hsum, hle'⟩

/-- A task that leaves, or only was boosted. -/
theorem dl_overflow_other (h : b.Holds cpus t) (hsome : dl_overflow b cpus t none = some b') :
    b'.bw = b.bw ∧ b'.total_bw + share t t.rd = b.total_bw := by
  have hfits := h.fits
  have hcap := h.cap
  have hshare := h.share
  unfold dl_overflow at hsome
  cases hpol : t.dl_policy with
  | false =>
      rw [share_of_no_policy hpol]
      simp only [hpol, Option.isSome_none, Option.isNone_none, Bool.false_eq_true, false_and,
        and_false, if_false] at hsome
      obtain ⟨-, rfl⟩ := Run.accepted hsome
      exact ⟨rfl, rfl⟩
  | true =>
      rw [share_of_policy hpol] at hshare ⊢
      simp only [hpol, Option.isSome_none, Option.isNone_none, Bool.false_eq_true, false_and,
        and_self, if_false, if_true] at hsome
      split at hsome
      · rename_i heq
        obtain rfl := Option.some.inj hsome
        exact ⟨rfl, by omega⟩
      · obtain rfl := Option.some.inj hsome
        refine ⟨rfl, ?_⟩
        show subU64 b.total_bw t.dl_bw + t.dl_bw = b.total_bw
        rw [subU64_of_le hshare (by omega)]
        omega

end Overflow

section Events

variable {T : Finset Nat} {s : System} {p : Nat}

theorem Accounted.setDeadline {prm : SchedParam2} {user spans : Bool} (h : Accounted T s)
    (hp : p ∈ T) (hreg : Regular s (.deadline p prm user spans)) :
    Accounted T (orSame s (setDeadline s p prm user spans)) := by
  obtain ⟨hpos, hperiod, hdeadline, hruntime, hne⟩ := hreg
  unfold Bandwidth.setDeadline
  split
  · exact h
  rename_i hcheck
  split
  · exact h
  split
  · exact h
  rename_i dl_b hsome
  have hle : to_ratio prm.sched_period prm.sched_runtime ≤ 2 ^ 20 :=
    to_ratio_le (runtime_le_of_checkparam (by simpa using hcheck) hpos hperiod hdeadline hruntime)
      hruntime
  obtain ⟨hbw, htotal, hcap⟩ := dl_overflow_deadline (h.holds hp) hle hne hsome
  have hshare : share (__setparam_dl prm (s.task p)) (s.task p).rd =
      to_ratio prm.sched_period prm.sched_runtime := by
    simp [share, __setparam_dl, hpos.ne']
  exact h.set hp rfl hbw (hshare ▸ htotal) hcap fun _ =>
    (share_of_policy (t := __setparam_dl prm (s.task p)) rfl).symm.le.trans (hshare.le.trans hle)

/-- What the task has goes out of the account. -/
theorem Accounted.leave {dl_b : DlBw} (h : Accounted T s) (hp : p ∈ T)
    (hbw : dl_b.bw = (s.domain p).bw)
    (htotal : dl_b.total_bw + share (s.task p) (s.task p).rd = (s.domain p).total_bw) :
    Accounted T (s.set p dl_b { s.task p with dl_policy := false }) := by
  have hcap := (h.holds hp).cap
  refine h.set hp rfl hbw ?_ (by omega) (fun htrue => nomatch htrue)
  rw [share_of_no_policy (t := { s.task p with dl_policy := false }) rfl]
  exact htotal

theorem Accounted.setOther {boosted : Bool} (h : Accounted T s) (hp : p ∈ T) :
    Accounted T (orSame s (setOther s p boosted)) := by
  unfold Bandwidth.setOther
  dsimp only
  split
  · exact h
  rename_i dl_b hsome
  split at hsome
  · obtain ⟨hbw, htotal⟩ := dl_overflow_other (h.holds hp) hsome
    exact h.leave hp hbw htotal
  · rename_i hno
    obtain rfl := Option.some.inj hsome
    refine h.leave hp rfl ?_
    rw [share_of_no_policy (by simpa using fun hpol => hno (.inl hpol)), Nat.add_zero]

/-- A task with the policy, or with no bandwidth: what it has is what the account says. -/
theorem share_of_regular {boosted : Bool} (hdl : (s.task p).dl_policy ∨ boosted)
    (hreg : boosted = true → (s.task p).dl_policy = true ∨ (s.task p).dl_bw = 0) :
    share (s.task p) (s.task p).rd = (s.task p).dl_bw := by
  have hor : (s.task p).dl_policy = true ∨ (s.task p).dl_bw = 0 := hdl.elim .inl hreg
  rcases hor with hpol | hzero
  · exact share_of_policy hpol
  · simp [share, hzero]

theorem Accounted.dead {boosted : Bool} (h : Accounted T s) (hp : p ∈ T)
    (hreg : Regular s (.dead p boosted)) : Accounted T (dead s p boosted) := by
  unfold Bandwidth.dead
  split
  · rename_i hdl
    have hfits := (h.holds hp).fits
    have hcap := (h.holds hp).cap
    have hle := (h.holds hp).share
    have hshare := share_of_regular hdl hreg
    refine h.leave hp rfl ?_
    rw [hshare] at hle ⊢
    show subU64 (s.domain p).total_bw (s.task p).dl_bw + _ = _
    rw [subU64_of_le hle (by omega)]
    omega
  · exact h

/-- To another root domain, with what the task has. -/
theorem Accounted.set_task_cpu_dl {s' : System} {rd : Nat} (h : Accounted T s) (hp : p ∈ T)
    (hshare : share (s.task p) (s.task p).rd = (s.task p).dl_bw)
    (hsome : set_task_cpu_dl s p rd = some s') : Accounted T s' := by
  unfold Bandwidth.set_task_cpu_dl at hsome
  split at hsome
  · obtain rfl := Option.some.inj hsome
    exact h
  rename_i hne
  split at hsome
  · nomatch hsome
  rename_i hover
  obtain rfl := Option.some.inj hsome
  have hhas := (h.holds hp).share
  have hcap := (h.holds hp).cap
  have hfits := (h.holds hp).fits
  have hfits' := h.fits rd
  have hcap' := h.cap rd
  have hunit : (s.task p).dl_bw ≤ 2 ^ 20 := by
    cases hpol : (s.task p).dl_policy with
    | true => exact h.unit p hp hpol
    | false =>
        rw [share_of_no_policy hpol] at hshare
        omega
  have hnew : share { s.task p with rd := rd } rd = (s.task p).dl_bw := by
    rw [← hshare]
    simp [share]
  rw [hshare] at hhas
  have hsub : (__dl_clear (s.domain p) (s.task p).dl_bw).total_bw + (s.task p).dl_bw =
      (s.domain p).total_bw := by
    show subU64 _ _ + _ = _
    rw [subU64_of_le hhas (by omega)]
    omega
  have hadd : (__dl_add (s.dl_bw_of rd) (s.task p).dl_bw).total_bw =
      (s.dl_bw_of rd).total_bw + (s.task p).dl_bw := addU64_of_lt (by omega)
  have hroom : (s.dl_bw_of rd).total_bw + (s.task p).dl_bw ≤
      (s.dl_bw_of rd).bw * s.span_weight rd := by
    rw [Nat.mod_eq_of_lt (by omega), addU64_of_lt (by omega)] at hover
    exact Nat.le_of_not_lt fun hlt => hover ⟨h.enabled, hlt⟩
  refine h.change hp (fun rd' => ?_) (fun rd' => ?_) (fun rd' => ?_) fun _ => hunit
  · rcases eq_or_ne rd' rd with rfl | hne'
    · rw [Function.update_self]
      rfl
    · rw [Function.update_of_ne hne']
      rcases eq_or_ne rd' (s.task p).rd with rfl | hne''
      · rw [Function.update_self]
        rfl
      · rw [Function.update_of_ne hne'']
  · rcases eq_or_ne rd' rd with rfl | hne'
    · rw [Function.update_self, hadd, hnew, share_of_ne (Ne.symm hne), Nat.add_zero]
    · rw [Function.update_of_ne hne', share_of_ne (t := { s.task p with rd := rd }) hne'.symm]
      rcases eq_or_ne rd' (s.task p).rd with rfl | hne''
      · rw [Function.update_self, hshare, hsub]
        rfl
      · rw [Function.update_of_ne hne'', share_of_ne hne''.symm]
  · rcases eq_or_ne rd' rd with rfl | hne'
    · rw [Function.update_self, hadd]
      exact hroom
    · rw [Function.update_of_ne hne']
      rcases eq_or_ne rd' (s.task p).rd with rfl | hne''
      · rw [Function.update_self]
        change _ ≤ (s.domain p).bw * _
        omega
      · rw [Function.update_of_ne hne'']
        exact h.cap rd'

theorem Accounted.migrate {rd : Nat} {boosted : Bool} (h : Accounted T s) (hp : p ∈ T)
    (hreg : Regular s (.migrate p rd boosted)) : Accounted T (migrate s p rd boosted) := by
  unfold Bandwidth.migrate
  split
  · rename_i hdl
    cases hsome : Bandwidth.set_task_cpu_dl s p rd with
    | none => exact h
    | some s' => exact h.set_task_cpu_dl hp (share_of_regular hdl hreg) hsome
  · rename_i hno
    have hpol : (s.task p).dl_policy = false := by simpa using fun hpol => hno (.inl hpol)
    exact h.idle hp hpol hpol

theorem Accounted.sched_fork {child : Nat} {reset_on_fork : Bool} (h : Accounted T s)
    (hchild : child ∈ T) (hpol : (s.task child).dl_policy = false) :
    Accounted T (orSame s (sched_fork s p child reset_on_fork)) := by
  unfold Bandwidth.sched_fork
  split
  · exact h
  · exact h.idle hchild hpol rfl

end Events

theorem Accounted.step {T : Finset Nat} {s s' : System} {e : Event} (h : Accounted T s)
    (hreg : Regular s e) (hstep : step T s e = some s') : Accounted T s' := by
  cases e with
  | deadline p prm user spans =>
      obtain ⟨hp, rfl⟩ := Run.accepted hstep
      exact h.setDeadline hp hreg
  | other p boosted =>
      obtain ⟨hp, rfl⟩ := Run.accepted hstep
      exact h.setOther hp
  | migrate p rd boosted =>
      obtain ⟨hp, rfl⟩ := Run.accepted hstep
      exact h.migrate hp hreg
  | dead p boosted =>
      obtain ⟨hp, rfl⟩ := Run.accepted hstep
      exact h.dead hp hreg
  | fork p child reset_on_fork =>
      obtain ⟨⟨hchild, hpol⟩, rfl⟩ := Run.accepted hstep
      exact h.sched_fork hchild hpol

/-! ## From the start -/

def init_dl_bw (global_rt_period global_dl_runtime : Nat) : DlBw where
  bw := if global_dl_runtime = RUNTIME_INF then 2 ^ 64 - 1
    else to_ratio global_rt_period global_dl_runtime
  total_bw := 0

/-- No task has had the policy yet. -/
def boot (global_rt_period global_dl_runtime : Nat) (span_weight rd : Nat → Nat) : System where
  dl_bw_of _ := init_dl_bw global_rt_period global_dl_runtime
  span_weight := span_weight
  task p := { dl_bw := 0, dl_policy := false, rd := rd p }
  dl_bandwidth_enabled := decide (global_dl_runtime ≠ RUNTIME_INF)

section Boot

variable {T : Finset Nat} {global_rt_period global_dl_runtime : Nat} {span_weight rd : Nat → Nat}

theorem accounted_boot (hle : global_dl_runtime ≤ global_rt_period)
    (hlt : global_dl_runtime < 2 ^ 63) (hspan : ∀ rd, span_weight rd < 2 ^ 31) :
    Accounted T (boot global_rt_period global_dl_runtime span_weight rd) := by
  have hne : global_dl_runtime ≠ RUNTIME_INF := by
    unfold RUNTIME_INF
    omega
  have hbw : (init_dl_bw global_rt_period global_dl_runtime).bw ≤ 2 ^ 20 := by
    unfold init_dl_bw
    rw [if_neg hne]
    exact to_ratio_le hle hlt
  constructor
  · exact
      { enabled := decide_eq_true hne
        bw := fun _ => by
          show (init_dl_bw global_rt_period global_dl_runtime).bw ≠ _
          omega
        fits := fun i => by
          have hmul : (init_dl_bw global_rt_period global_dl_runtime).bw * span_weight i ≤
              2 ^ 20 * 2 ^ 31 := Nat.mul_le_mul hbw (hspan i).le
          show (init_dl_bw global_rt_period global_dl_runtime).bw * span_weight i + _ < _
          omega }
  · intro i
    exact (Finset.sum_eq_zero fun _ _ => share_of_no_policy rfl i).symm
  · intro i
    exact Nat.zero_le _
  · intro p _ hpol
    nomatch hpol

theorem accounted_of_run {s₀ s : System} {es : List Event} (h : Accounted T s₀)
    (hrun : Run.exec (step T) s₀ es = some s)
    (hreg : Run.Meets (step T) (fun _ => Regular) s₀ es) : Accounted T s :=
  Run.invariant_of_meets (step T) (I := fun _ s => Accounted T s) h
    (fun _ _ _ _ h hG hs => h.step hG hs) es s hrun hreg

/-- `total_bw` is what the tasks of the root domain have, and is within the limit. -/
theorem bandwidth_accounted (hle : global_dl_runtime ≤ global_rt_period)
    (hlt : global_dl_runtime < 2 ^ 63) (hspan : ∀ rd, span_weight rd < 2 ^ 31)
    {es : List Event} {s : System}
    (hrun : Run.exec (step T) (boot global_rt_period global_dl_runtime span_weight rd) es = some s)
    (hreg : Run.Meets (step T) (fun _ => Regular)
      (boot global_rt_period global_dl_runtime span_weight rd) es) (i : Nat) :
    (s.dl_bw_of i).total_bw = allocated T s i ∧
      (s.dl_bw_of i).total_bw ≤ (s.dl_bw_of i).bw * s.span_weight i := by
  have hacc := accounted_of_run (accounted_boot hle hlt hspan) hrun hreg
  exact ⟨hacc.total i, hacc.cap i⟩

end Boot

/-- Two tasks on one CPU each: a reservation, another root domain, a second one, a change of
mind. -/
def someRequests : List Event :=
  [.deadline 0 ⟨300000, 1000000, 1000000⟩ true true, .migrate 0 1 false,
    .deadline 1 ⟨200000, 500000, 1000000⟩ true true, .other 0 false,
    .fork 0 2 false, .dead 1 false, .deadline 0 ⟨100000, 400000, 400000⟩ false false]

theorem someRequests_accounted :
    ∃ s, Run.exec (step {0, 1, 2}) (boot 1000000000 400000000 (fun _ => 1) (fun _ => 0))
      someRequests = some s ∧
      (s.dl_bw_of 1).total_bw = 262144 ∧ allocated {0, 1, 2} s 1 = 262144 := by
  obtain ⟨s, hrun, hs⟩ := Option.map_eq_some_iff.mp
    (show (Run.exec (step {0, 1, 2}) (boot 1000000000 400000000 (fun _ => 1) (fun _ => 0))
      someRequests).map (fun s => (s.dl_bw_of 1).total_bw) = some 262144 from rfl)
  have hacc := bandwidth_accounted (by decide) (by decide) (fun _ => by decide) hrun
    (by decide) 1
  exact ⟨s, hrun, hs, hacc.1.symm.trans hs⟩

/-! ## Round after round -/

/-- The task gets the policy and gives it up again, `n` times. -/
def rounds (p : Nat) (prm : SchedParam2) : Nat → List Event
  | 0 => []
  | n + 1 => .deadline p prm true true :: .other p false :: rounds p prm n

/-- `dl_overflow` does not count the task: it takes the bandwidth for 0, or for the one that
the task already has. -/
def Uncounted (t : Account) (prm : SchedParam2) : Prop :=
  to_ratio prm.sched_period prm.sched_runtime = t.dl_bw ∨
    prm.sched_period = 0 ∧ prm.sched_runtime ≠ RUNTIME_INF

/-- What the task has after the request. -/
def granted (prm : SchedParam2) : Nat :=
  to_ratio (if prm.sched_period ≠ 0 then prm.sched_period else prm.sched_deadline)
    prm.sched_runtime

section Rounds

variable {T : Finset Nat} {s : System} {p : Nat} {prm : SchedParam2}

theorem dl_overflow_uncounted {b : DlBw} {cpus : Nat} {t : Account} (h : b.Holds cpus t)
    (hpol : t.dl_policy = false) (hfree : Uncounted t prm) :
    dl_overflow b cpus t (some prm) = some b := by
  have hfits := h.fits
  have hcap := h.cap
  simp only [dl_overflow]
  split
  · rfl
  · rename_i hne
    obtain heq | ⟨hzero, hinf⟩ := hfree
    · exact absurd heq hne
    have hratio : to_ratio prm.sched_period prm.sched_runtime = 0 := by
      simp [to_ratio, hzero, hinf]
    have hover : __dl_overflow b cpus 0 0 = false := by
      refine decide_eq_false fun hh => ?_
      rw [subU64_of_le (Nat.zero_le _) (by omega), addU64_of_lt (by omega),
        Nat.mod_eq_of_lt (by omega)] at hh
      omega
    rw [hratio, if_pos ⟨rfl, by simp [hpol], by simp [hover]⟩]
    simp only [__dl_add, addU64, Nat.add_zero]
    rw [Nat.mod_eq_of_lt (by omega)]

theorem dl_overflow_gives_back {b : DlBw} {cpus : Nat} {t : Account} (hpol : t.dl_policy = true)
    (hle : t.dl_bw ≤ b.total_bw) (hlt : b.total_bw < 2 ^ 64) :
    dl_overflow b cpus t none = some { b with total_bw := b.total_bw - t.dl_bw } := by
  unfold dl_overflow
  by_cases hzero : 0 = t.dl_bw
  · simp [← hzero]
  · simp [hzero, hpol, __dl_clear, subU64_of_le hle hlt]

/-- A request that was not counted once is not counted the next time. -/
theorem uncounted_granted (t : Account) :
    Uncounted { t with dl_bw := granted prm, dl_policy := false } prm := by
  by_cases hperiod : prm.sched_period = 0
  · by_cases hinf : prm.sched_runtime = RUNTIME_INF
    · exact .inl (by simp [granted, to_ratio, hinf])
    · exact .inr ⟨hperiod, hinf⟩
  · exact .inl (by simp [granted, hperiod])

@[simp] theorem set_task (b : DlBw) (t : Account) : (s.set p b t).task p = t :=
  Function.update_self ..

@[simp] theorem set_span_weight (b : DlBw) (t : Account) :
    (s.set p b t).span_weight = s.span_weight := rfl

theorem set_domain {b : DlBw} {t : Account} (hrd : t.rd = (s.task p).rd) :
    (s.set p b t).domain p = b := by
  unfold System.domain
  rw [set_task, hrd]
  exact Function.update_self ..

theorem set_set {b b' : DlBw} {t t' : Account} (hrd : t.rd = (s.task p).rd) :
    (s.set p b t).set p b' t' = s.set p b' t' := by
  rw [System.set, set_task, hrd]
  simp [System.set]

/-- The task of the rounds, before each of them. -/
structure Drains (T : Finset Nat) (s : System) (p : Nat) (prm : SchedParam2) : Prop where
  mem : p ∈ T
  check : __checkparam_dl prm = true
  holds : (s.domain p).Holds (s.span_weight (s.task p).rd) (s.task p)
  bw : (s.domain p).bw ≠ 0
  no_policy : (s.task p).dl_policy = false
  free : Uncounted (s.task p) prm

/-- The state after one round. -/
def drained (s : System) (p : Nat) (prm : SchedParam2) : System :=
  s.set p { s.domain p with total_bw := (s.domain p).total_bw - granted prm }
    { s.task p with dl_bw := granted prm, dl_policy := false }

theorem drained_task : (drained s p prm).task p =
    { s.task p with dl_bw := granted prm, dl_policy := false } := set_task ..

theorem drained_domain : (drained s p prm).domain p =
    { s.domain p with total_bw := (s.domain p).total_bw - granted prm } := set_domain rfl

theorem Drains.round (h : Drains T s p prm) (hle : granted prm ≤ (s.domain p).total_bw)
    (es : List Event) :
    Run.exec (step T) s (.deadline p prm true true :: .other p false :: es) =
      Run.exec (step T) (drained s p prm) es := by
  have hlt : (s.domain p).total_bw < 2 ^ 64 := by
    have := h.holds.cap
    have := h.holds.fits
    omega
  have hdeadline : setDeadline s p prm true true =
      .ok (s.set p (s.domain p) (__setparam_dl prm (s.task p))) := by
    simp [setDeadline, h.check, h.bw, dl_overflow_uncounted h.holds h.no_policy h.free]
  have hother : setOther (s.set p (s.domain p) (__setparam_dl prm (s.task p))) p false =
      .ok (drained s p prm) := by
    have hgives : dl_overflow (s.domain p) (s.span_weight (s.task p).rd)
        (__setparam_dl prm (s.task p)) none =
          some { s.domain p with total_bw := (s.domain p).total_bw - granted prm } :=
      dl_overflow_gives_back rfl hle hlt
    have hpol : (__setparam_dl prm (s.task p)).dl_policy = true := rfl
    have hrd : (__setparam_dl prm (s.task p)).rd = (s.task p).rd := rfl
    simp only [setOther, set_task, set_domain hrd, hpol, true_or, if_true, hrd, set_span_weight,
      hgives, set_set hrd]
    rfl
  simp only [Run.exec, step, if_pos h.mem, hdeadline, orSame, Option.bind_some, hother]

theorem Drains.drained (h : Drains T s p prm) :
    Drains T (drained s p prm) p prm where
  mem := h.mem
  check := h.check
  holds := by
    have hcap := h.holds.cap
    rw [drained_task, drained_domain]
    exact
      { bw := h.holds.bw
        fits := h.holds.fits
        cap := (Nat.sub_le _ _).trans hcap
        share := by
          rw [share_of_no_policy rfl]
          exact Nat.zero_le _ }
  bw := by
    rw [drained_domain]
    exact h.bw
  no_policy := by rw [drained_task]
  free := by
    rw [drained_task]
    exact uncounted_granted _

/-- All that the rounds change in the account of the domain is to take the bandwidth out
once a round. -/
theorem Drains.rounds (n : Nat) (h : Drains T s p prm)
    (hn : n * granted prm ≤ (s.domain p).total_bw) :
    ∃ s', Run.exec (step T) s (rounds p prm n) = some s' ∧
      (s'.domain p).total_bw + n * granted prm = (s.domain p).total_bw ∧
      (s'.domain p).bw = (s.domain p).bw ∧ (s'.task p).rd = (s.task p).rd ∧
      (s'.task p).dl_policy = false ∧ ∀ q, q ≠ p → s'.task q = s.task q := by
  induction n generalizing s with
  | zero => exact ⟨s, rfl, by simp, rfl, rfl, h.no_policy, fun _ _ => rfl⟩
  | succ n ih =>
      rw [Nat.succ_mul] at hn ⊢
      have hle : granted prm ≤ (s.domain p).total_bw := by omega
      obtain ⟨s', hrun, htotal, hbw, hrd, hpol, hothers⟩ := ih h.drained (by
        rw [drained_domain]
        exact Nat.le_sub_of_add_le hn)
      rw [drained_domain] at htotal hbw
      rw [drained_task] at hrd
      refine ⟨s', ?_, ?_, hbw, hrd, hpol, fun q hq => ?_⟩
      · rw [Bandwidth.rounds, h.round hle]
        exact hrun
      · dsimp only at htotal
        omega
      · rw [hothers q hq]
        exact Function.update_of_ne hq ..

/-- Each round takes as much out of the account as if it had been counted before, while all
tasks have what they had. -/
theorem uncounted_rounds (h : Accounted T s) (hp : p ∈ T)
    (hcheck : __checkparam_dl prm = true) (hbw : (s.domain p).bw ≠ 0)
    (hpol : (s.task p).dl_policy = false) (hfree : Uncounted (s.task p) prm) (n : Nat)
    (hn : n * granted prm ≤ (s.domain p).total_bw) :
    ∃ s', Run.exec (step T) s (rounds p prm n) = some s' ∧
      (∀ i, allocated T s' i = allocated T s i) ∧ (s'.domain p).bw = (s.domain p).bw ∧
      (s'.domain p).total_bw + n * granted prm = allocated T s' (s'.task p).rd := by
  have hdrains : Drains T s p prm := ⟨hp, hcheck, h.holds hp, hbw, hpol, hfree⟩
  obtain ⟨s', hrun, htotal, hbw', hrd, hpol', hothers⟩ := hdrains.rounds n hn
  have hsame : ∀ i, allocated T s' i = allocated T s i := by
    intro i
    refine Finset.sum_congr rfl fun q _ => ?_
    rcases eq_or_ne q p with rfl | hne
    · rw [share_of_no_policy hpol, share_of_no_policy hpol']
    · rw [hothers q hne]
  refine ⟨s', hrun, hsame, hbw', ?_⟩
  rw [htotal, hsame, hrd]
  exact h.total _

end Rounds

/-- A second task after a first one, without a period. -/
theorem someRounds_uncounted :
    ∃ s s', Run.exec (step {0, 1}) (boot 1000000000 400000000 (fun _ => 1) fun _ => 0)
      [.deadline 0 ⟨300000, 1000000, 1000000⟩ true true] = some s ∧
      Run.exec (step {0, 1}) s (rounds 1 ⟨100000, 1000000, 0⟩ 2) = some s' ∧
      (s'.domain 1).total_bw + 2 * 104857 = allocated {0, 1} s' (s'.task 1).rd := by
  obtain ⟨s, hrun, hs⟩ := Option.map_eq_some_iff.mp
    (show (Run.exec (step {0, 1}) (boot 1000000000 400000000 (fun _ => 1) fun _ => 0)
      [.deadline 0 ⟨300000, 1000000, 1000000⟩ true true]).map
        (fun s => (s.task 1, s.domain 1)) = some (⟨0, false, 0⟩, ⟨419430, 314572⟩) from rfl)
  obtain ⟨htask, hdomain⟩ := Prod.mk.inj hs
  have hacc : Accounted {0, 1} s :=
    accounted_of_run (accounted_boot (by decide) (by decide) fun _ => by decide) hrun (by decide)
  obtain ⟨s', hrun', -, -, htotal⟩ := @uncounted_rounds {0, 1} s 1 ⟨100000, 1000000, 0⟩
    hacc (by decide) (by decide) (by simp [hdomain]) (by simp [htask]) (.inr (by decide)) 2
    (by rw [hdomain]; decide)
  exact ⟨s, s', hrun, hrun', htotal⟩

end Bandwidth

end KernelLab.Deadline
