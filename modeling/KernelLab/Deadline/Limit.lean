/-
# `KernelLab.Deadline.Limit` — the limit, and writing to it

The part of the CPU that tasks with this policy may reserve is set by
`sysctl_sched_dl_runtime`, as a part of what the real-time tasks may have.  A write to it, or
to the real-time period and runtime, is taken back if the constraints are not met, and
otherwise becomes `def_dl_bandwidth` and the `bw` of every root domain.

"Here we want to check the bandwidth not being set to some value smaller than the currently
allocated bandwidth in any of the root_domains", says `check_dl_bw`.  It reads
`def_dl_bandwidth`, which is what was set the last time.

## What is proved

Of every run of writes, with tasks that come and go in between:

    a write of `sysctl_sched_dl_runtime` is accepted exactly if the values in force are in
      order and cover what is out, whatever the value written, which then is the limit;
      one of the real-time values, if neither is 0 and the runtime in force covers what is
      out, in order or not                                       (`write_accepted_iff`)
    once they do not cover what is out in some root domain, nothing can be written until
      some of it is given back, or the period is made shorter     (`limit_stuck`)
    a value beyond the period is accepted if any is, and then no value is
                                                                  (`oversized_stuck`)
-/
import KernelLab.Deadline.Bandwidth

namespace KernelLab.Deadline

namespace Limit

open Bandwidth

set_option linter.style.nameCheck false

def NSEC_PER_USEC : Nat := 1000

/-- What can be written: `sysctl_sched_dl_runtime`, and the two others as
`global_rt_period()` and `global_rt_runtime()` give them. -/
structure Values where
  global_rt_period : Nat
  global_rt_runtime : Nat
  sysctl_sched_dl_runtime : Int

/-- `def_dl_bandwidth.dl_runtime`, and the root domains' `dl_bw`. -/
structure State extends Values where
  dl_runtime : Nat
  dl_bw_of : Nat → DlBw

def global_dl_runtime (v : Values) : Nat :=
  if v.sysctl_sched_dl_runtime < 0 then RUNTIME_INF
  else v.sysctl_sched_dl_runtime.toNat * NSEC_PER_USEC % 2 ^ 64

def actual_dl_runtime (v : Values) : Nat :=
  if global_dl_runtime v = RUNTIME_INF then RUNTIME_INF
  else global_dl_runtime v * v.global_rt_runtime % 2 ^ 64 / v.global_rt_period

section Handlers

-- the root domains of the possible CPUs
variable (domains : Finset Nat)

/-- `-EBUSY` -/
def check_dl_bw (s : State) : Int :=
  let new_bw := to_ratio s.global_rt_period s.dl_runtime
  if ∃ rd ∈ domains, new_bw < (s.dl_bw_of rd).total_bw then -16 else 0

def update_dl_bw (s : State) : State :=
  let dl_runtime := actual_dl_runtime s.toValues
  let new_bw :=
    if dl_runtime = RUNTIME_INF ∨ s.global_rt_runtime = RUNTIME_INF then 2 ^ 64 - 1
    else to_ratio s.global_rt_period dl_runtime
  { s with
    dl_runtime := dl_runtime
    dl_bw_of := fun rd =>
      if rd ∈ domains then { s.dl_bw_of rd with bw := new_bw } else s.dl_bw_of rd }

/-- `-EINVAL`, as a `bool` -/
def __sched_dl_global_constraints (runtime period : Nat) : Bool :=
  decide (period = 0 ∨ runtime ≠ RUNTIME_INF ∧ period < runtime)

def sched_dl_global_constraints (s : State) : Int :=
  if __sched_dl_global_constraints s.dl_runtime s.global_rt_period then 1
  else check_dl_bw domains s

/-- `-EINVAL`, `-EBUSY` -/
def sched_rt_global_constraints (s : State) : Int :=
  if s.global_rt_period = 0 then -22
  else if s.global_rt_runtime = 0 then -16
  else check_dl_bw domains s

/-- A write of `value`. -/
def sched_dl_handler (s : State) (value : Int) : Int × State :=
  let written := { s with sysctl_sched_dl_runtime := value }
  let ret := sched_dl_global_constraints domains written
  if ret ≠ 0 then
    (ret, { written with sysctl_sched_dl_runtime := s.sysctl_sched_dl_runtime })
  else (ret, update_dl_bw domains written)

/-- A write of `period` or `runtime`; the other one is what it was. -/
def sched_rt_handler (s : State) (period runtime : Nat) : Int × State :=
  let written := { s with global_rt_period := period, global_rt_runtime := runtime }
  let ret := sched_rt_global_constraints domains written
  if ret ≠ 0 then
    (ret, { written with
      global_rt_period := s.global_rt_period, global_rt_runtime := s.global_rt_runtime })
  else (ret, update_dl_bw domains written)

end Handlers

/-! ## Runs -/

inductive Write where
  | dl (value : Int)
  | rt (period runtime : Nat)

inductive Event where
  | write (w : Write)
  /-- tasks come and go, and another amount is out -/
  | lend (rd total_bw : Nat)

def handler (domains : Finset Nat) (s : State) : Write → Int × State
  | .dl value => sched_dl_handler domains s value
  | .rt period runtime => sched_rt_handler domains s period runtime

def step (domains : Finset Nat) (s : State) : Event → Option State
  | .write w => some (handler domains s w).2
  | .lend rd total_bw =>
      some { s with
        dl_bw_of := Function.update s.dl_bw_of rd
          { s.dl_bw_of rd with total_bw := total_bw } }

/-- `sched_init` -/
def boot (v : Values) : State where
  toValues := v
  dl_runtime := actual_dl_runtime v
  dl_bw_of _ := init_dl_bw v.global_rt_period (global_dl_runtime v)

/-- What is to be in force after a write. -/
def Write.values (v : Values) : Write → Values
  | .dl value => { v with sysctl_sched_dl_runtime := value }
  | .rt period runtime => { v with global_rt_period := period, global_rt_runtime := runtime }

/-- The limit that the values stand for. -/
def limit (v : Values) : Nat :=
  if actual_dl_runtime v = RUNTIME_INF ∨ v.global_rt_runtime = RUNTIME_INF then 2 ^ 64 - 1
  else to_ratio v.global_rt_period (actual_dl_runtime v)

/-- The runtime is not longer than the period. -/
def InOrder (v : Values) : Prop :=
  actual_dl_runtime v = RUNTIME_INF ∨ actual_dl_runtime v ≤ v.global_rt_period

/-- On every root domain, no more is out than what the runtime in force is of `period`. -/
def Covers (domains : Finset Nat) (s : State) (period : Nat) : Prop :=
  ∀ rd ∈ domains, (s.dl_bw_of rd).total_bw ≤ to_ratio period (actual_dl_runtime s.toValues)

/-- What makes a write acceptable.  The runtime in it is that of the values in force. -/
def Accepts (domains : Finset Nat) (s : State) : Write → Prop
  | .dl _ => InOrder s.toValues ∧ Covers domains s s.global_rt_period
  | .rt period runtime => period ≠ 0 ∧ runtime ≠ 0 ∧ Covers domains s period

/-! ## What a write does -/

variable {domains : Finset Nat} {s s₀ s' : State}

/-- `def_dl_bandwidth` is what the values in force say. -/
structure Sound (s : State) : Prop where
  period : s.global_rt_period ≠ 0
  runtime : s.dl_runtime = actual_dl_runtime s.toValues

theorem check_dl_bw_eq_zero_iff :
    check_dl_bw domains s = 0 ↔
      ∀ rd ∈ domains, (s.dl_bw_of rd).total_bw ≤ to_ratio s.global_rt_period s.dl_runtime := by
  unfold check_dl_bw
  simp only
  split
  · rename_i hout
    obtain ⟨rd, hrd, hlt⟩ := hout
    exact iff_of_false (by decide) fun hall => (hall rd hrd).not_gt hlt
  · rename_i hout
    push Not at hout
    exact iff_of_true rfl hout

theorem dl_constraints_iff (h : Sound s) (value : Int) :
    sched_dl_global_constraints domains { s with sysctl_sched_dl_runtime := value } = 0 ↔
      Accepts domains s (.dl value) := by
  unfold sched_dl_global_constraints __sched_dl_global_constraints
  split
  · rename_i hbad
    refine iff_of_false (by decide) fun haccepts => ?_
    rcases of_decide_eq_true hbad with hzero | ⟨hinf, hlt⟩
    · exact h.period hzero
    · replace hinf : s.dl_runtime ≠ RUNTIME_INF := hinf
      replace hlt : s.global_rt_period < s.dl_runtime := hlt
      rw [h.runtime] at hinf hlt
      exact (haccepts.1.resolve_left hinf).not_gt hlt
  · rename_i hok
    have horder : InOrder s.toValues := by
      refine or_iff_not_imp_left.mpr fun hinf => not_lt.mp fun hlt => hok (decide_eq_true (.inr ?_))
      rw [← h.runtime] at hinf hlt
      exact ⟨hinf, hlt⟩
    rw [check_dl_bw_eq_zero_iff]
    simp only [h.runtime]
    exact ⟨fun hcovers => ⟨horder, hcovers⟩, fun haccepts => haccepts.2⟩

theorem rt_constraints_iff (h : Sound s) (period runtime : Nat) :
    sched_rt_global_constraints domains
        { s with global_rt_period := period, global_rt_runtime := runtime } = 0 ↔
      Accepts domains s (.rt period runtime) := by
  unfold sched_rt_global_constraints
  split
  · rename_i hzero
    exact iff_of_false (by decide) fun haccepts => haccepts.1 hzero
  rename_i hperiod
  split
  · rename_i hzero
    exact iff_of_false (by decide) fun haccepts => haccepts.2.1 hzero
  rename_i hruntime
  rw [check_dl_bw_eq_zero_iff]
  simp only [h.runtime]
  exact ⟨fun hcovers => ⟨hperiod, hruntime, hcovers⟩, fun haccepts => haccepts.2.2⟩

/-- The two outcomes of a write. -/
theorem handler_cases (domains : Finset Nat) (h : Sound s) (w : Write) :
    Accepts domains s w ∧ (handler domains s w).1 = 0 ∧
        (handler domains s w).2 =
          update_dl_bw domains ⟨w.values s.toValues, s.dl_runtime, s.dl_bw_of⟩ ∨
      ¬ Accepts domains s w ∧ (handler domains s w).1 ≠ 0 ∧ (handler domains s w).2 = s := by
  cases w with
  | dl value =>
      have hiff : _ ↔ Accepts domains s (.dl value) := dl_constraints_iff h value
      unfold handler sched_dl_handler
      simp only
      split
      · rename_i hne
        exact .inr ⟨fun haccepts => hne (hiff.mpr haccepts), hne, rfl⟩
      · rename_i hzero
        have hzero := not_not.mp hzero
        exact .inl ⟨hiff.mp hzero, hzero, rfl⟩
  | rt period runtime =>
      have hiff : _ ↔ Accepts domains s (.rt period runtime) :=
        rt_constraints_iff h period runtime
      unfold handler sched_rt_handler
      simp only
      split
      · rename_i hne
        exact .inr ⟨fun haccepts => hne (hiff.mpr haccepts), hne, rfl⟩
      · rename_i hzero
        have hzero := not_not.mp hzero
        exact .inl ⟨hiff.mp hzero, hzero, rfl⟩

theorem handler_refused {w : Write} (h : Sound s) (hno : ¬ Accepts domains s w) :
    (handler domains s w).1 ≠ 0 ∧ (handler domains s w).2 = s := by
  rcases handler_cases domains h w with ⟨haccepts, -⟩ | ⟨-, hrefused⟩
  · exact absurd haccepts hno
  · exact hrefused

theorem Sound.step {e : Event} (h : Sound s) (hstep : step domains s e = some s') :
    Sound s' := by
  cases e with
  | write w =>
      obtain rfl := Option.some.inj hstep
      rcases handler_cases domains h w with ⟨haccepts, -, heq⟩ | ⟨-, -, heq⟩
      · rw [heq]
        refine ⟨?_, rfl⟩
        cases w with
        | dl value => exact h.period
        | rt period runtime => exact haccepts.1
      · rw [heq]
        exact h
  | lend rd total_bw =>
      obtain rfl := Option.some.inj hstep
      exact ⟨h.period, h.runtime⟩

theorem sound_of_run {v : Values} (hperiod : v.global_rt_period ≠ 0) {es : List Event}
    (hrun : Run.exec (step domains) (boot v) es = some s) : Sound s :=
  Run.invariant (step domains) (I := fun _ s => Sound s) (show Sound (boot v) from ⟨hperiod, rfl⟩)
    (fun _ _ _ _ h hs => h.step hs) es s hrun

/-- The values in force decide, and not the value written. -/
theorem write_accepted_iff (domains : Finset Nat) (v : Values) (hperiod : v.global_rt_period ≠ 0)
    (es : List Event) (s : State) (hrun : Run.exec (step domains) (boot v) es = some s)
    (w : Write) :
    ((handler domains s w).1 = 0 ↔ Accepts domains s w) ∧
      ((handler domains s w).1 = 0 →
        (handler domains s w).2.toValues = w.values s.toValues ∧
        ∀ rd ∈ domains, (handler domains s w).2.dl_bw_of rd =
          { s.dl_bw_of rd with bw := limit (w.values s.toValues) }) ∧
      ((handler domains s w).1 ≠ 0 → (handler domains s w).2 = s) := by
  rcases handler_cases domains (sound_of_run hperiod hrun) w with
    ⟨haccepts, hret, heq⟩ | ⟨hno, hret, heq⟩
  · refine ⟨iff_of_true hret haccepts, fun _ => ?_, fun hne => absurd hret hne⟩
    rw [heq]
    exact ⟨rfl, fun rd hrd => if_pos hrd⟩
  · exact ⟨iff_of_false hret hno, fun hzero => absurd hzero hret, fun _ => heq⟩

/-! ## When nothing is accepted any more -/

/-- What has been the same since `s₀`. -/
structure Kept (s₀ s : State) : Prop where
  sound : Sound s
  values : s.toValues = s₀.toValues
  bw : ∀ i, (s.dl_bw_of i).bw = (s₀.dl_bw_of i).bw

theorem Kept.lend (h : Kept s₀ s) (domains : Finset Nat) (rd total_bw : Nat)
    (hstep : step domains s (.lend rd total_bw) = some s') : Kept s₀ s' := by
  refine ⟨h.sound.step hstep, ?_, fun i => ?_⟩
  · obtain rfl := Option.some.inj hstep
    exact h.values
  · obtain rfl := Option.some.inj hstep
    dsimp only
    rcases eq_or_ne i rd with rfl | hne
    · rw [Function.update_self]
      exact h.bw i
    · rw [Function.update_of_ne hne]
      exact h.bw i

/-- The bandwidth that the values in force give to one root domain. -/
def ratio (v : Values) : Nat :=
  to_ratio v.global_rt_period (actual_dl_runtime v)

/-- In the root domain `rd` more stays out than the values `v` stand for, and the period is not
made shorter. -/
def StaysOut (v : Values) (rd : Nat) : Event → Prop
  | .write (.dl _) => True
  | .write (.rt period _) => v.global_rt_period ≤ period
  | .lend rd' total_bw => rd' = rd → ratio v < total_bw

theorem to_ratio_antitone {period period' : Nat} (hperiod : period ≠ 0)
    (hle : period ≤ period') (runtime : Nat) :
    to_ratio period' runtime ≤ to_ratio period runtime := by
  unfold to_ratio
  rw [if_neg hperiod]
  split
  · exact le_rfl
  · rw [if_neg (by omega)]
    exact Nat.div_le_div_left hle (Nat.pos_of_ne_zero hperiod)

/-- `Kept`, and too much is out. -/
structure Stuck (s₀ : State) (rd : Nat) (s : State) : Prop extends Kept s₀ s where
  out : ratio s₀.toValues < (s.dl_bw_of rd).total_bw

theorem Stuck.not_accepts {rd : Nat} {w : Write} (h : Stuck s₀ rd s) (hrd : rd ∈ domains)
    (hout : StaysOut s₀.toValues rd (.write w)) : ¬ Accepts domains s w := by
  -- both ask for a runtime that covers what is out, of a period that is not shorter
  have hnot : ∀ period, s₀.global_rt_period ≤ period → ¬ Covers domains s period := by
    intro period hle hcovers
    have hperiod : s₀.global_rt_period ≠ 0 := by
      have hne := h.sound.period
      rwa [h.values] at hne
    have htotal := hcovers rd hrd
    rw [h.values] at htotal
    exact (htotal.trans (to_ratio_antitone hperiod hle _)).not_gt h.out
  cases w with
  | dl value =>
      intro haccepts
      have hcovers := haccepts.2
      rw [h.values] at hcovers
      exact hnot _ le_rfl hcovers
  | rt period runtime =>
      intro haccepts
      exact hnot period hout haccepts.2.2

theorem Stuck.step {rd : Nat} {e : Event} (h : Stuck s₀ rd s) (hrd : rd ∈ domains)
    (hout : StaysOut s₀.toValues rd e) (hstep : step domains s e = some s') :
    Stuck s₀ rd s' := by
  cases e with
  | write w =>
      obtain rfl := Option.some.inj hstep
      rw [(handler_refused h.sound (h.not_accepts hrd hout)).2]
      exact h
  | lend rd' total_bw =>
      refine ⟨h.lend domains rd' total_bw hstep, ?_⟩
      obtain rfl := Option.some.inj hstep
      dsimp only
      rcases eq_or_ne rd rd' with rfl | hne
      · rw [Function.update_self]
        exact hout rfl
      · rw [Function.update_of_ne hne]
        exact h.out

/-- More is out than the values in force stand for, and stays so: nothing that is written
makes a difference, a shorter period apart. -/
theorem limit_stuck (domains : Finset Nat) (v : Values) (hperiod : v.global_rt_period ≠ 0)
    (es : List Event) (s : State) (hrun : Run.exec (step domains) (boot v) es = some s)
    (rd : Nat) (hrd : rd ∈ domains) (hout : ratio s.toValues < (s.dl_bw_of rd).total_bw)
    (es' : List Event) (s' : State) (hrun' : Run.exec (step domains) s es' = some s')
    (hstays : Run.Meets (step domains) (fun _ _ => StaysOut s.toValues rd) s es') :
    s'.toValues = s.toValues ∧ (∀ i, (s'.dl_bw_of i).bw = (s.dl_bw_of i).bw) ∧
      ∀ w, StaysOut s.toValues rd (.write w) → (handler domains s' w).1 ≠ 0 := by
  have hstuck : Stuck s rd s' := by
    refine Run.invariant_of_meets (step domains) (I := fun _ s' => Stuck s rd s')
      ⟨⟨sound_of_run hperiod hrun, rfl, fun _ => rfl⟩, hout⟩ ?_ es' s' hrun' hstays
    intro _ t e t' h hstay hstep
    exact h.step hrd hstay hstep
  refine ⟨hstuck.values, hstuck.bw, fun w hw => ?_⟩
  exact (handler_refused hstuck.sound (hstuck.not_accepts hrd hw)).1

/-- The real-time period and runtime are left alone. -/
def NotRt : Event → Prop
  | .write (.rt _ _) => False
  | _ => True

theorem Kept.not_accepts_dl (h : Kept s₀ s) (horder : ¬ InOrder s₀.toValues) (value : Int) :
    ¬ Accepts domains s (.dl value) := by
  intro haccepts
  have hin := haccepts.1
  rw [h.values] at hin
  exact horder hin

theorem Kept.step_of_oversized {e : Event} (h : Kept s₀ s) (horder : ¬ InOrder s₀.toValues)
    (hnot : NotRt e) (hstep : step domains s e = some s') : Kept s₀ s' := by
  match e, hnot with
  | .write (.dl value), _ =>
      obtain rfl := Option.some.inj hstep
      have hrefused : ¬ Accepts domains s (.dl value) := h.not_accepts_dl horder value
      rw [(handler_refused h.sound hrefused).2]
      exact h
  | .lend rd total_bw, _ => exact h.lend domains rd total_bw hstep

theorem kept_of_oversized (hsound : Sound s₀) (horder : ¬ InOrder s₀.toValues)
    {es : List Event} (hrun : Run.exec (step domains) s₀ es = some s)
    (hnot : Run.Meets (step domains) (fun _ _ => NotRt) s₀ es) : Kept s₀ s := by
  refine Run.invariant_of_meets (step domains) (I := fun _ s => Kept s₀ s)
    ⟨hsound, rfl, fun _ => rfl⟩ ?_ es s hrun hnot
  intro _ t e t' h hnotRt hstep
  exact h.step_of_oversized horder hnotRt hstep

/-- A value beyond the period is accepted if any is, and then, whatever comes and goes, no
other one is. -/
theorem oversized_stuck (domains : Finset Nat) (v : Values) (hperiod : v.global_rt_period ≠ 0)
    (es : List Event) (s : State) (hrun : Run.exec (step domains) (boot v) es = some s)
    (value : Int) (hover : ¬ InOrder (Write.values s.toValues (.dl value))) :
    (∀ value', (sched_dl_handler domains s value').1 = 0 →
      (sched_dl_handler domains s value).1 = 0) ∧
    ((sched_dl_handler domains s value).1 = 0 → ∀ es' s',
      Run.exec (step domains) (sched_dl_handler domains s value).2 es' = some s' →
      Run.Meets (step domains) (fun _ _ => NotRt) (sched_dl_handler domains s value).2 es' →
      s'.sysctl_sched_dl_runtime = value ∧
        (∀ rd ∈ domains, (s'.dl_bw_of rd).bw = limit (Write.values s.toValues (.dl value))) ∧
        ∀ value', (sched_dl_handler domains s' value').1 ≠ 0) := by
  have hsound := sound_of_run hperiod hrun
  rcases handler_cases domains hsound (.dl value) with ⟨-, hret, heq⟩ | ⟨hno, hne, -⟩
  swap
  · -- what is refused depends on the values in force only
    refine ⟨fun value' hret => absurd hret ?_, fun hret => absurd hret hne⟩
    exact (handler_refused (w := .dl value') hsound hno).1
  refine ⟨fun _ _ => hret, fun _ es' s' hrun' hnot => ?_⟩
  have hvalues : (sched_dl_handler domains s value).2.toValues =
      Write.values s.toValues (.dl value) := congrArg State.toValues heq
  have hkept : Kept (sched_dl_handler domains s value).2 s' :=
    kept_of_oversized
      (hsound.step (show step domains s (.write (.dl value)) = some _ from rfl))
      (by rwa [hvalues]) hrun' hnot
  refine ⟨?_, fun rd hrd => ?_, fun value' => ?_⟩
  · rw [hkept.values, hvalues]
    rfl
  · rw [hkept.bw rd, show (sched_dl_handler domains s value).2 = _ from heq]
    exact congrArg DlBw.bw (if_pos hrd)
  · have hrefused : ¬ Accepts domains s' (.dl value') :=
      hkept.not_accepts_dl (by rwa [hvalues]) value'
    exact (handler_refused hkept.sound hrefused).1

/-- Of a CPU, 95% are for real-time tasks, and 40% of these for ours. -/
def someValues : Values := ⟨1000000000, 950000000, 400000⟩

/-- With 300000 out, a runtime of 0 is accepted, and the limit is 0 then. -/
theorem someWrite_accepted :
    ∃ s, Run.exec (step {0}) (boot someValues) [.lend 0 300000] = some s ∧
      (s.dl_bw_of 0).total_bw = 300000 ∧ (handler {0} s (.dl 0)).1 = 0 ∧
      (handler {0} s (.dl 0)).2.sysctl_sched_dl_runtime = 0 ∧
      ((handler {0} s (.dl 0)).2.dl_bw_of 0).bw = 0 := by
  obtain ⟨s, hrun, hfacts⟩ := Option.map_eq_some_iff.mp
    (show (Run.exec (step {0}) (boot someValues) [.lend 0 300000]).map
        (fun s => (s.toValues, (s.dl_bw_of 0).total_bw)) = some (someValues, 300000) from rfl)
  obtain ⟨hvalues, hout⟩ := Prod.mk.inj hfacts
  obtain ⟨hiff, hthen, -⟩ :=
    write_accepted_iff {0} someValues (by decide) [.lend 0 300000] s hrun (.dl 0)
  have haccepts : Accepts {0} s (.dl 0) := by
    refine ⟨?_, fun rd hrd => ?_⟩
    · rw [hvalues]
      unfold InOrder
      decide
    · obtain rfl := Finset.mem_singleton.mp hrd
      rw [hvalues, hout]
      decide
  obtain ⟨hwritten, hlimit⟩ := hthen (hiff.mpr haccepts)
  refine ⟨s, hrun, hout, hiff.mpr haccepts, ?_, ?_⟩
  · rw [hwritten]
    rfl
  · rw [hlimit 0 (Finset.mem_singleton_self 0), hvalues]
    show limit (Write.values someValues (.dl 0)) = 0
    decide

/-- The limit is set to 0 while something is out, and stays 0. -/
theorem someWrite_stuck :
    ∃ s s', Run.exec (step {0}) (boot someValues) [.lend 0 300000, .write (.dl 0)] = some s ∧
      Run.exec (step {0}) s [.write (.dl 400000), .lend 0 1, .write (.rt 1000000000 1)] =
        some s' ∧
      s'.sysctl_sched_dl_runtime = 0 ∧ ∀ value, (sched_dl_handler {0} s' value).1 ≠ 0 := by
  obtain ⟨s, hrun, hfacts⟩ := Option.map_eq_some_iff.mp
    (show (Run.exec (step {0}) (boot someValues) [.lend 0 300000, .write (.dl 0)]).map
        (fun s => (s.toValues, (s.dl_bw_of 0).total_bw)) =
      some (⟨1000000000, 950000000, 0⟩, 300000) from rfl)
  simp only [Prod.mk.injEq] at hfacts
  obtain ⟨hvalues, hout⟩ := hfacts
  have hratio : ratio s.toValues = 0 := by
    rw [hvalues]
    decide
  have hshort : s.global_rt_period = 1000000000 := by
    rw [hvalues]
  obtain ⟨s', hrun'⟩ : ∃ s', Run.exec (step {0}) s
      [.write (.dl 400000), .lend 0 1, .write (.rt 1000000000 1)] = some s' := ⟨_, rfl⟩
  have hstuck := limit_stuck {0} someValues (by decide) [.lend 0 300000, .write (.dl 0)] s hrun 0
    (by decide) (by rw [hratio, hout]; decide) _ s' hrun'
    (by simp [Run.Meets, Run.MeetsFrom, StaysOut, hratio, hshort])
  refine ⟨s, s', hrun, hrun', ?_, fun value => hstuck.2.2 (.dl value) trivial⟩
  rw [hstuck.1, hvalues]

/-- Twice the period: accepted, and then 40% are refused. -/
theorem someWrite_oversized :
    (sched_dl_handler {0} (boot someValues) 2000000).1 = 0 ∧
    ∃ s', Run.exec (step {0}) (sched_dl_handler {0} (boot someValues) 2000000).2
        [.write (.dl 400000), .lend 0 300000] = some s' ∧
      s'.sysctl_sched_dl_runtime = 2000000 ∧
      ∀ value', (sched_dl_handler {0} s' value').1 ≠ 0 := by
  obtain ⟨hany, hthen⟩ := oversized_stuck {0} someValues (by decide) [] (boot someValues) rfl
    2000000 (by unfold InOrder; decide)
  have hret := hany 400000 (by decide)
  obtain ⟨s', hrun'⟩ : ∃ s', Run.exec (step {0})
      (sched_dl_handler {0} (boot someValues) 2000000).2
        [.write (.dl 400000), .lend 0 300000] = some s' := ⟨_, rfl⟩
  have hstuck := hthen hret _ s' hrun' (by simp [Run.Meets, Run.MeetsFrom, NotRt])
  exact ⟨hret, s', hrun', hstuck.1, hstuck.2.2⟩

end Limit

end KernelLab.Deadline
