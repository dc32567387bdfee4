/-
# `KernelLab.Interrupt.AddThread` — the kernel-thread bottom half of `interrupt_add_thread.c`

A handler raises the flag `cond`; a kernel thread of the module waits for it and
counts.  The flag is taken down at the *top* of the thread's loop:

    my_interrupt                      thr_fun
      atomic_inc(&counter_th)           do
      atomic_set(&cond, 1)                atomic_set(&cond, 0)
      wake_up_interruptible(&wq)          wait_event(stop || cond)
                                          if (cond) atomic_inc(&counter_bh)
                                        while (!stop)

Whatever the flag says when the thread comes round is discarded.  An interrupt
whose store falls behind the counting and before the next reset is in no
`counter_bh` and wakes nobody (`lost_between_count_and_reset`).

## What is proved

    until a stop is asked for, no handler stores cond while the thread is between
    its test of cond and its next reset
      ⟹  whenever the thread is blocked with cond = 0, no handler is midway and
          no stop was asked for, every store since the first reset has been
          followed by an increment of counter_bh           (`served_of_outside`)

The property speaks of the order of events, so it is stated of the schedule, and
the invariant pairs the schedule with the state.  The condition cannot be relaxed at
any state: a single store against it can be followed at once by the reset that loses
it (`lost_of_inside`).  An interrupt that has not been
served yet is still *charged* to the thread, either by the flag, seen from a
place where the thread will test it, or by the increment the thread is about to
make.

`data->jiffies` is written by the handler and read by a `printk` only; it is not
in the state.  The wait is one step, enabled while its condition holds: a
sleeping thread that has been woken and one that never slept differ in nothing
the counters can see.
-/
import KernelLab.Lib.Run
import KernelLab.Lib.CInt

namespace KernelLab.Interrupt.AddThread

open KernelLab.CInt KernelLab.Run

/-- Where `thr_fun` stands. -/
inductive ThreadPc where
  /-- before `atomic_set(&cond, 0)` -/
  | reset
  /-- in `wait_event_interruptible` -/
  | wait
  /-- before `if (atomic_read(&cond))` -/
  | test
  /-- before `atomic_inc(&counter_bh)` -/
  | count
  /-- before `printk` and `while (!kthread_should_stop())` -/
  | again
  /-- returned -/
  | done
  deriving DecidableEq, Repr

structure State where
  counter_th : Int
  counter_bh : Int
  cond : Int
  /-- `kthread_should_stop()` -/
  stop : Bool
  thread : ThreadPc
  /-- runs of `my_interrupt` before their store to `cond` -/
  counted : Nat
  /-- runs of `my_interrupt` behind it, before the wake-up and the return -/
  stored : Nat
  deriving DecidableEq, Repr

/-- As `my_init` leaves the module; the thread is created and has not run. -/
def my_init : State where
  counter_th := 0
  counter_bh := 0
  cond := 1
  stop := false
  thread := .reset
  counted := 0
  stored := 0

/-- Three steps of a handler, five of the thread, and `kthread_stop` raising the
stop flag. -/
inductive Event where
  | irqCount
  | irqStore
  | irqWake
  | threadReset
  | threadPass
  | threadTest
  | threadCount
  | threadLoop
  | kthreadStop
  deriving DecidableEq, Repr

def step (s : State) : Event → Option State
  | .irqCount =>
      some { s with counter_th := atomicInc s.counter_th, counted := s.counted + 1 }
  | .irqStore =>
      if 0 < s.counted then
        some { s with cond := 1, counted := s.counted - 1, stored := s.stored + 1 }
      else none
  | .irqWake => if 0 < s.stored then some { s with stored := s.stored - 1 } else none
  | .threadReset =>
      if s.thread = .reset then some { s with cond := 0, thread := .wait } else none
  | .threadPass =>
      if s.thread = .wait ∧ (s.stop = true ∨ s.cond ≠ 0) then
        some { s with thread := .test }
      else none
  | .threadTest =>
      if s.thread = .test then
        some { s with thread := if s.cond ≠ 0 then .count else .again }
      else none
  | .threadCount =>
      if s.thread = .count then
        some { s with counter_bh := atomicInc s.counter_bh, thread := .again }
      else none
  | .threadLoop =>
      if s.thread = .again then
        some { s with thread := if s.stop = true then .done else .reset }
      else none
  | .kthreadStop => some { s with stop := true }

/-! ## What "served" means, on the schedule -/

/-- Every store to `cond` behind the first reset is followed by an increment of
`counter_bh`. -/
def Served (es : List Event) : Prop :=
  ∀ before after, es = before ++ .irqStore :: after → .threadReset ∈ before →
    .threadCount ∈ after

/-- No handler is midway, and `thr_fun` is blocked with `cond` down and no stop
request. -/
def Blocked (s : State) : Prop :=
  s.counted = 0 ∧ s.stored = 0 ∧ s.thread = .wait ∧ s.cond = 0 ∧ s.stop = false

instance decBlocked (s : State) : Decidable (Blocked s) :=
  inferInstanceAs (Decidable (_ ∧ _))

/-- The second interrupt stores `cond` behind the counting of the first. -/
def lateStore : List Event :=
  [.threadReset, .irqCount, .irqStore, .irqWake, .threadPass, .threadTest, .threadCount,
   .irqCount, .irqStore, .irqWake, .threadLoop, .threadReset]

theorem lost_between_count_and_reset :
    ∃ s, exec step my_init lateStore = some s ∧ Blocked s ∧
      s.counter_th = 2 ∧ s.counter_bh = 1 ∧ ¬ Served lateStore := by
  refine ⟨{ my_init with counter_th := 2, counter_bh := 1, cond := 0, thread := .wait },
    by decide, by decide, rfl, rfl, ?_⟩
  intro h
  -- the ninth event is the store; what is behind it counts nothing
  have := h (lateStore.take 8) [.irqWake, .threadLoop, .threadReset] rfl (by decide)
  exact absurd this (by decide)

theorem served_nil : Served [] := by
  intro before after h
  simp at h

theorem served_count (es : List Event) : Served (es ++ [.threadCount]) := by
  intro before after h _
  rcases split_concat h with ⟨-, hx, -⟩ | ⟨after', rfl, -⟩
  · nomatch hx
  · simp

/-- An event that is not a store, or comes before the first reset, asks for no
new service. -/
theorem Served.concat {es : List Event} {e : Event} (h : Served es)
    (he : e = .irqStore → .threadReset ∉ es) : Served (es ++ [e]) := by
  intro before after heq hr
  rcases split_concat heq with ⟨rfl, hx, -⟩ | ⟨after', rfl, hes⟩
  · exact absurd hr (he hx.symm)
  · exact List.mem_append_left _ (h before after' hes hr)

/-! ## The condition, and the invariant under it -/

/-- Behind the first reset, and before a stop request, no store to `cond` falls
between the thread's test of it and the next reset. -/
def Outside (before : List Event) (s : State) : Event → Prop
  | .irqStore =>
      .threadReset ∈ before → s.stop = false → s.thread ≠ .again ∧ s.thread ≠ .reset
  | _ => True

instance decOutside (before : List Event) (s : State) :
    (e : Event) → Decidable (Outside before s e)
  | .irqStore => inferInstanceAs (Decidable (_ → _ → _ ∧ _))
  | .irqCount | .irqWake | .threadReset | .threadPass | .threadTest | .threadCount | .threadLoop
  | .kthreadStop => inferInstanceAs (Decidable True)

/-- The thread will count without a further interrupt, or is gone. -/
def Charged (s : State) : Prop :=
  ((s.thread = .wait ∨ s.thread = .test) ∧ s.cond = 1) ∨ s.thread = .count ∨ s.thread = .done

/-- Until a stop is asked for, an interrupt that is not served is charged to the
thread. -/
def Accounted (es : List Event) (s : State) : Prop := s.stop = false → Served es ∨ Charged s

theorem Accounted.store {es : List Event} {s : State} (h : Accounted es s)
    (hG : Outside es s .irqStore) :
    Accounted (es ++ [.irqStore])
      { s with cond := 1, counted := s.counted - 1, stored := s.stored + 1 } := by
  intro hstop
  by_cases hr : .threadReset ∈ es
  · obtain ⟨ha, hz⟩ := hG hr hstop
    -- every other place leads to the test or is already behind a successful one
    cases ht : s.thread with
    | reset => exact absurd ht hz
    | wait => exact .inr (.inl ⟨.inl rfl, rfl⟩)
    | test => exact .inr (.inl ⟨.inr rfl, rfl⟩)
    | count => exact .inr (.inr (.inl rfl))
    | again => exact absurd ht ha
    | done => exact .inr (.inr (.inr rfl))
  · rcases h hstop with hs | ⟨ht, _⟩ | hc
    · exact .inl (hs.concat fun _ => hr)
    · exact .inr (.inl ⟨ht, rfl⟩)
    · exact .inr (.inr hc)

/-- A step that neither stores nor counts keeps the account if it keeps every
charge. -/
theorem Accounted.keep {es : List Event} {s s' : State} {e : Event} (h : Accounted es s)
    (he : e ≠ .irqStore) (hstop : s'.stop = false → s.stop = false)
    (hc : Charged s → Charged s') : Accounted (es ++ [e]) s' := by
  intro hs'
  rcases h (hstop hs') with hs | hs
  · exact .inl (hs.concat fun hx => absurd hx he)
  · exact .inr (hc hs)

theorem Accounted.step {es : List Event} {s s' : State} {e : Event} (h : Accounted es s)
    (hG : Outside es s e) (he : step s e = some s') : Accounted (es ++ [e]) s' := by
  cases e with
  | irqCount =>
      cases he
      exact h.keep (by decide) id id
  | irqStore =>
      obtain ⟨_, rfl⟩ := accepted he
      exact h.store hG
  | irqWake =>
      obtain ⟨_, rfl⟩ := accepted he
      exact h.keep (by decide) id id
  | threadReset =>
      obtain ⟨ht, rfl⟩ := accepted he
      refine h.keep (by decide) id fun hc => ?_
      simp [Charged, ht] at hc
  | threadPass =>
      obtain ⟨⟨ht, _⟩, rfl⟩ := accepted he
      refine h.keep (by decide) id fun hc => .inl ⟨.inr rfl, ?_⟩
      simpa [Charged, ht] using hc
  | threadTest =>
      obtain ⟨ht, rfl⟩ := accepted he
      refine h.keep (by decide) id fun hc => .inr (.inl ?_)
      have h1 : s.cond = 1 := by simpa [Charged, ht] using hc
      simp [h1]
  | threadCount =>
      intro _
      exact .inl (served_count es)
  | threadLoop =>
      obtain ⟨ht, rfl⟩ := accepted he
      refine h.keep (by decide) id fun hc => ?_
      simp [Charged, ht] at hc
  | kthreadStop =>
      cases he
      exact h.keep (by decide) nofun id

/-! ## Every run under the condition -/

theorem served_of_outside (es : List Event) (s : State) (hrun : exec step my_init es = some s)
    (hG : Meets step Outside my_init es) (hb : Blocked s) : Served es := by
  have hI : Accounted es s :=
    invariant_of_meets step (I := Accounted) (fun _ => .inl served_nil)
      (fun _ _ _ _ hI hG he => hI.step hG he) es s hrun hG
  obtain ⟨-, -, ht, hc, hstop⟩ := hb
  rcases hI hstop with hs | hs
  · exact hs
  · simp [Charged, ht, hc] at hs

/-- One interrupt, counted before the next one stores; both are served. -/
def twoInTurn : List Event :=
  [.threadReset, .irqCount, .irqStore, .irqWake, .threadPass, .threadTest, .threadCount,
   .irqCount, .threadLoop, .threadReset, .irqStore, .irqWake, .threadPass, .threadTest,
   .threadCount, .threadLoop, .threadReset]

theorem served_twoInTurn :
    ∃ s, exec step my_init twoInTurn = some s ∧ Meets step Outside my_init twoInTurn ∧
      Blocked s ∧ Served twoInTurn := by
  have hrun : exec step my_init twoInTurn = some
      { my_init with counter_th := 2, counter_bh := 2, cond := 0, thread := .wait } := by decide
  exact ⟨_, hrun, by decide, by decide,
    served_of_outside twoInTurn _ hrun (by decide) (by decide)⟩

/-! ## The condition is needed

From any state in which a handler is about to store against it, the handlers midway
can finish and the thread come round, all before the next test. -/

theorem exec_stores {n : Nat} {s : State} (h : s.counted = n + 1) :
    exec step s (List.replicate (n + 1) .irqStore) =
      some { s with cond := 1, counted := 0, stored := s.stored + (n + 1) } := by
  induction n generalizing s with
  | zero => simp [exec, step, h]
  | succ n ih =>
      rw [List.replicate_succ, exec]
      simp only [step, h, Nat.succ_pos, if_true, Option.bind_some, Nat.add_sub_cancel]
      rw [ih rfl]
      simp only [Option.some.injEq, State.mk.injEq, true_and]
      omega

theorem exec_wakes {n : Nat} {s : State} (h : s.stored = n) :
    exec step s (List.replicate n .irqWake) = some { s with stored := 0 } := by
  induction n generalizing s with
  | zero =>
      obtain ⟨th, bh, cond, stop, thread, counted, stored⟩ := s
      cases h
      rfl
  | succ n ih =>
      rw [List.replicate_succ, exec]
      simp only [step, h, Nat.succ_pos, if_true, Option.bind_some, Nat.add_sub_cancel]
      rw [ih rfl]

theorem exec_comeRound {s : State} (h : s.thread = .again ∨ s.thread = .reset)
    (hstop : s.stop = false) :
    ∃ es, .threadCount ∉ es ∧ exec step s es = some { s with cond := 0, thread := .wait } := by
  rcases h with h | h
  · exact ⟨[.threadLoop, .threadReset], by decide, by simp [exec, step, h, hstop]⟩
  · exact ⟨[.threadReset], by decide, by simp [exec, step, h]⟩

theorem lost_of_inside {es : List Event} {s : State} (hrun : exec step my_init es = some s)
    (hc : 0 < s.counted) (hin : ¬ Outside es s .irqStore) :
    ∃ rest s', exec step my_init (es ++ .irqStore :: rest) = some s' ∧ Blocked s' ∧
      ¬ Served (es ++ .irqStore :: rest) := by
  obtain ⟨hr, hin⟩ := Classical.not_imp.mp hin
  obtain ⟨hstop, hin⟩ := Classical.not_imp.mp hin
  have hplace : s.thread = .again ∨ s.thread = .reset := by tauto
  obtain ⟨n, hn⟩ : ∃ n, s.counted = n + 1 := ⟨s.counted - 1, by omega⟩
  obtain ⟨round, hcount, hround⟩ := exec_comeRound
    (s := { s with cond := 1, counted := 0, stored := 0 }) hplace hstop
  refine ⟨List.replicate n .irqStore ++ List.replicate (s.stored + (n + 1)) .irqWake ++ round,
    { s with cond := 0, counted := 0, stored := 0, thread := .wait }, ?_,
    ⟨rfl, rfl, rfl, rfl, hstop⟩, ?_⟩
  · rw [exec_append, hrun, Option.bind_some, ← List.cons_append, ← List.cons_append,
      ← List.replicate_succ, exec_append, exec_append, exec_stores hn, Option.bind_some,
      exec_wakes rfl, Option.bind_some, hround]
  · intro hs
    have hmem := hs es _ rfl hr
    simp [hcount] at hmem

end KernelLab.Interrupt.AddThread
