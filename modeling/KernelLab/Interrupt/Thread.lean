/-
# `KernelLab.Interrupt.Thread` — the threaded interrupt of `interrupt_thread.c`

The hard handler and the irq thread share three counters.  The handler records
an interrupt twice, in `nevents` and in the wake-up it returns:

    my_interrupt                      thread_run
      atomic_inc(&counter_th)           do
      atomic_inc(&nevents)                atomic_inc(&counter_bh)
      return IRQ_WAKE_THREAD            while (!atomic_dec_and_test(&nevents))

`thread_run` drains `nevents` and leaves the wake-up alone.  An interrupt that
lands while it drains therefore has its event taken by the run in progress and
its wake-up taken by the next one, and that next run decrements first and asks
afterwards.  `drained_before_wake` is such a schedule.

## What is proved

    every wake-up is taken with nevents > 0,
    and no interrupt finds counter_th at INT_MAX
      ⟹  nevents ≥ 0,  counter_bh ≤ counter_th  in every state of the run,
          and both records empty in every quiet one             (`sound_of_woken`)

and a step against the condition, the first in its run, is followed by a violation
(`unsound_of_not_woken`).

The invariant that carries it balances the counters: every handler that has
counted itself is in `counter_bh`, in `nevents`, or still on its way to
`nevents`, and the thread is ahead by one between its two instructions.

Handlers have no local state, so the runs of `my_interrupt` that are midway are
kept as two numbers, one for each place a run can stand between its steps.
Nothing forbids them to overlap: the irq line is shared, and the argument does
not need them serialised.
-/
import KernelLab.Lib.Run
import KernelLab.Lib.CInt

namespace KernelLab.Interrupt.Thread

open KernelLab.CInt KernelLab.Run

/-- Where the irq thread stands. -/
inductive ThreadPc where
  /-- waiting for `IRQTF_RUNTHREAD` -/
  | idle
  /-- in `thread_run`, before `atomic_inc(&counter_bh)` -/
  | inc
  /-- in `thread_run`, before `atomic_dec_and_test(&nevents)` -/
  | decTest
  /-- behind the loop, before `printk` and `return IRQ_NONE` -/
  | leave
  deriving DecidableEq, Repr

structure State where
  counter_th : Int
  counter_bh : Int
  nevents : Int
  /-- the pending bit `IRQ_WAKE_THREAD` sets -/
  wake : Bool
  thread : ThreadPc
  /-- runs of `my_interrupt` between the two increments -/
  counted : Nat
  /-- runs of `my_interrupt` between the second increment and the return -/
  noted : Nat
  deriving DecidableEq, Repr

/-- The counters as `my_init` leaves them, and the line just requested. -/
def my_init : State where
  counter_th := 0
  counter_bh := 0
  nevents := 0
  wake := false
  thread := .idle
  counted := 0
  noted := 0

/-- The atomic steps, three of a handler and four of the irq thread. -/
inductive Event where
  | irqCount
  | irqNote
  | irqReturn
  | threadWake
  | threadInc
  | threadDecTest
  | threadReturn
  deriving DecidableEq, Repr

def step (s : State) : Event → Option State
  | .irqCount =>
      some { s with counter_th := atomicInc s.counter_th, counted := s.counted + 1 }
  | .irqNote =>
      if 0 < s.counted then
        some { s with
          nevents := atomicInc s.nevents
          counted := s.counted - 1
          noted := s.noted + 1 }
      else none
  | .irqReturn =>
      if 0 < s.noted then some { s with wake := true, noted := s.noted - 1 } else none
  | .threadWake =>
      -- the bit is cleared before `thread_run` is called
      if s.thread = .idle ∧ s.wake = true then
        some { s with wake := false, thread := .inc }
      else none
  | .threadInc =>
      if s.thread = .inc then
        some { s with counter_bh := atomicInc s.counter_bh, thread := .decTest }
      else none
  | .threadDecTest =>
      if s.thread = .decTest then
        some { s with
          nevents := atomicDec s.nevents
          thread := if atomicDec s.nevents = 0 then .leave else .inc }
      else none
  | .threadReturn =>
      if s.thread = .leave then some { s with thread := .idle } else none

/-- No handler is midway, the irq thread is idle and no wake-up is pending. -/
def Quiet (s : State) : Prop :=
  s.counted = 0 ∧ s.noted = 0 ∧ s.thread = .idle ∧ s.wake = false

instance decQuiet (s : State) : Decidable (Quiet s) :=
  inferInstanceAs (Decidable (_ ∧ _))

/-- What the counters are to say about each other. -/
def Sound (s : State) : Prop :=
  0 ≤ s.nevents ∧ s.counter_bh ≤ s.counter_th ∧
    (Quiet s → s.nevents = 0 ∧ s.counter_bh = s.counter_th)

instance decSound (s : State) : Decidable (Sound s) :=
  inferInstanceAs (Decidable (_ ∧ _ ∧ (_ → _)))

/-! ## The schedule that breaks it -/

/-- A second interrupt notes its event while the first is being drained, and
returns after the drain. -/
def lateReturn : List Event :=
  [.irqCount, .irqNote, .irqReturn, .threadWake, .threadInc, .irqCount, .irqNote,
   .threadDecTest, .threadInc, .threadDecTest, .threadReturn, .irqReturn,
   .threadWake, .threadInc, .threadDecTest]

theorem drained_before_wake :
    ∃ s, exec step my_init lateReturn = some s ∧
      s.nevents = -1 ∧ s.counter_bh = 3 ∧ s.counter_th = 2 ∧ ¬ Sound s := by
  decide

/-! ## The condition, and the invariant under it -/

/-- A wake-up is taken only while an event is noted, and `counter_th` has room
for one more interrupt. -/
def Woken (_ : List Event) (s : State) : Event → Prop
  | .threadWake => 0 < s.nevents
  | .irqCount => s.counter_th < INT_MAX
  | _ => True

instance decWoken (before : List Event) (s : State) : (e : Event) → Decidable (Woken before s e)
  | .threadWake => inferInstanceAs (Decidable (0 < s.nevents))
  | .irqCount => inferInstanceAs (Decidable (s.counter_th < INT_MAX))
  | .irqNote | .irqReturn | .threadInc | .threadDecTest | .threadReturn =>
      inferInstanceAs (Decidable True)

/-- The thread is inside the loop of `thread_run`. -/
def Draining (s : State) : Prop := s.thread = .inc ∨ s.thread = .decTest

/-- The events the thread has counted in `counter_bh` and not yet taken out of
`nevents`. -/
def ahead (s : State) : Int := if s.thread = .decTest then 1 else 0

structure Balanced (s : State) : Prop where
  th_max : s.counter_th ≤ INT_MAX
  bh_ahead : ahead s ≤ s.counter_bh
  nevents_nonneg : 0 ≤ s.nevents
  balance : s.counter_bh + s.nevents + s.counted = s.counter_th + ahead s
  /-- a run of the loop always has an event left to take -/
  draining : Draining s → 0 < s.nevents
  /-- a noted event is known to somebody who will call `thread_run` -/
  announced : 0 < s.nevents → 0 < s.noted ∨ s.wake = true ∨ Draining s

theorem ahead_nonneg (s : State) : 0 ≤ ahead s := by
  unfold ahead
  split <;> decide

theorem balanced_init : Balanced my_init where
  th_max := by decide
  bh_ahead := by decide
  nevents_nonneg := by decide
  balance := by decide
  draining := by simp [Draining, my_init]
  announced := by simp [my_init]

theorem Balanced.sound {s : State} (h : Balanced s) : Sound s := by
  have hb := h.balance
  refine ⟨h.nevents_nonneg, ?_, ?_⟩
  · by_cases hd : s.thread = .decTest
    · have := h.draining (.inr hd)
      simp only [ahead, hd, if_true] at hb
      omega
    · have := h.nevents_nonneg
      simp only [ahead, hd, if_false] at hb
      omega
  · rintro ⟨hc, hn, ht, hw⟩
    have hz : s.nevents = 0 := by
      by_contra hne
      have hpos : 0 < s.nevents := by have := h.nevents_nonneg; omega
      have := h.announced hpos
      simp [hn, hw, Draining, ht] at this
    simp only [ahead, ht, hc, reduceCtorEq, if_false] at hb
    omega

/-! ### One lemma for each step

None of the increments wraps: the counters and the handlers midway add up to
`counter_th`, which the condition keeps below `INT_MAX`. -/

theorem Balanced.irqCount {s : State} (h : Balanced s) (hroom : s.counter_th < INT_MAX) :
    Balanced { s with counter_th := atomicInc s.counter_th, counted := s.counted + 1 } := by
  have hb := h.balance
  have ha := h.bh_ahead
  have hn := h.nevents_nonneg
  have hinc : atomicInc s.counter_th = s.counter_th + 1 := atomicInc_of_lt (by omega) hroom
  refine ⟨?_, ha, hn, ?_, h.draining, h.announced⟩
  · show atomicInc s.counter_th ≤ INT_MAX
    omega
  · show s.counter_bh + s.nevents + (s.counted + 1 : Nat) = atomicInc s.counter_th + ahead s
    push_cast
    omega

theorem Balanced.irqNote {s : State} (h : Balanced s) (hc : 0 < s.counted) :
    Balanced { s with
      nevents := atomicInc s.nevents, counted := s.counted - 1, noted := s.noted + 1 } := by
  have hb := h.balance
  have ha := h.bh_ahead
  have hn := h.nevents_nonneg
  have hm := h.th_max
  have hinc : atomicInc s.nevents = s.nevents + 1 := atomicInc_of_lt hn (by omega)
  refine ⟨hm, ha, ?_, ?_, ?_, ?_⟩
  · show 0 ≤ atomicInc s.nevents
    omega
  · show s.counter_bh + atomicInc s.nevents + (s.counted - 1 : Nat) = s.counter_th + ahead s
    omega
  · intro _
    show 0 < atomicInc s.nevents
    omega
  · intro _
    exact .inl (Nat.succ_pos _)

theorem Balanced.irqReturn {s : State} (h : Balanced s) :
    Balanced { s with wake := true, noted := s.noted - 1 } where
  th_max := h.th_max
  bh_ahead := h.bh_ahead
  nevents_nonneg := h.nevents_nonneg
  balance := h.balance
  draining := h.draining
  announced := fun _ => .inr (.inl rfl)

theorem Balanced.threadWake {s : State} (h : Balanced s) (ht : s.thread = .idle)
    (hn : 0 < s.nevents) : Balanced { s with wake := false, thread := .inc } := by
  have hz : ahead s = 0 := by simp [ahead, ht]
  have hb := h.balance
  have ha := h.bh_ahead
  rw [hz] at hb ha
  exact ⟨h.th_max, ha, h.nevents_nonneg, hb, fun _ => hn, fun _ => .inr (.inr (.inl rfl))⟩

theorem Balanced.threadInc {s : State} (h : Balanced s) (ht : s.thread = .inc) :
    Balanced { s with counter_bh := atomicInc s.counter_bh, thread := .decTest } := by
  have hz : ahead s = 0 := by simp [ahead, ht]
  have hb := h.balance
  have ha := h.bh_ahead
  have hn := h.draining (.inl ht)
  have hm := h.th_max
  have hinc : atomicInc s.counter_bh = s.counter_bh + 1 := atomicInc_of_lt (by omega) (by omega)
  refine ⟨hm, ?_, h.nevents_nonneg, ?_, fun _ => hn, fun _ => .inr (.inr (.inr rfl))⟩
  · show 1 ≤ atomicInc s.counter_bh
    omega
  · show atomicInc s.counter_bh + s.nevents + s.counted = s.counter_th + 1
    omega

theorem Balanced.threadDecTest {s : State} (h : Balanced s) (ht : s.thread = .decTest) :
    Balanced { s with
      nevents := atomicDec s.nevents
      thread := if atomicDec s.nevents = 0 then .leave else .inc } := by
  have hz : ahead s = 1 := by simp [ahead, ht]
  have hb := h.balance
  have ha := h.bh_ahead
  have hn := h.draining (.inr ht)
  have hm := h.th_max
  have hdec : atomicDec s.nevents = s.nevents - 1 := atomicDec_of_pos hn (by omega)
  have hbh : 0 ≤ s.counter_bh := by omega
  have hrest : 0 ≤ s.nevents - 1 := by omega
  have hbal : s.counter_bh + (s.nevents - 1) + s.counted = s.counter_th + 0 := by omega
  rw [hdec]
  by_cases hl : s.nevents - 1 = 0
  · rw [if_pos hl]
    refine ⟨hm, hbh, hrest, hbal, ?_, ?_⟩
    · rintro (hx | hx) <;> cases hx
    · intro hpos
      have hpos' : 0 < s.nevents - 1 := hpos
      omega
  · rw [if_neg hl]
    refine ⟨hm, hbh, hrest, hbal, ?_, fun _ => .inr (.inr (.inl rfl))⟩
    intro _
    show 0 < s.nevents - 1
    omega

theorem Balanced.threadReturn {s : State} (h : Balanced s) (ht : s.thread = .leave) :
    Balanced { s with thread := .idle } := by
  have hz : ahead s = 0 := by simp [ahead, ht]
  have hb := h.balance
  have ha := h.bh_ahead
  rw [hz] at hb ha
  refine ⟨h.th_max, ha, h.nevents_nonneg, hb, ?_, ?_⟩
  · rintro (hx | hx) <;> cases hx
  · intro hpos
    rcases h.announced hpos with hx | hx | hx | hx
    · exact .inl hx
    · exact .inr (.inl hx)
    · exact absurd hx (by simp [ht])
    · exact absurd hx (by simp [ht])

theorem Balanced.step {s s' : State} {e : Event} {before : List Event} (h : Balanced s)
    (hG : Woken before s e) (he : step s e = some s') : Balanced s' := by
  cases e with
  | irqCount => cases he; exact h.irqCount hG
  | irqNote =>
      obtain ⟨hc, rfl⟩ := accepted he
      exact h.irqNote hc
  | irqReturn =>
      obtain ⟨_, rfl⟩ := accepted he
      exact h.irqReturn
  | threadWake =>
      obtain ⟨⟨ht, _⟩, rfl⟩ := accepted he
      exact h.threadWake ht hG
  | threadInc =>
      obtain ⟨ht, rfl⟩ := accepted he
      exact h.threadInc ht
  | threadDecTest =>
      obtain ⟨ht, rfl⟩ := accepted he
      exact h.threadDecTest ht
  | threadReturn =>
      obtain ⟨ht, rfl⟩ := accepted he
      exact h.threadReturn ht

/-! ## Every run under the condition -/

theorem balanced_of_woken {es : List Event} {s : State} (hrun : exec step my_init es = some s)
    (hG : Meets step Woken my_init es) : Balanced s :=
  invariant_of_meets step (I := fun _ s => Balanced s) balanced_init
    (fun _ _ _ _ hI hG he => hI.step hG he) es s hrun hG

theorem sound_of_woken (es : List Event) (s : State) (hrun : exec step my_init es = some s)
    (hG : Meets step Woken my_init es) : Sound s :=
  (balanced_of_woken hrun hG).sound

/-- Two interrupts before the thread runs: one wake-up serves both. -/
def twoAtOnce : List Event :=
  [.irqCount, .irqNote, .irqReturn, .irqCount, .irqNote, .irqReturn, .threadWake,
   .threadInc, .threadDecTest, .threadInc, .threadDecTest, .threadReturn]

/-- The state `twoAtOnce` ends in: quiet, with both interrupts served. -/
def bothServed : State := { my_init with counter_th := 2, counter_bh := 2 }

theorem sound_twoAtOnce :
    exec step my_init twoAtOnce = some bothServed ∧ Meets step Woken my_init twoAtOnce ∧
      Quiet bothServed ∧ Sound bothServed :=
  ⟨by decide, by decide, by decide, sound_of_woken twoAtOnce bothServed (by decide) (by decide)⟩

/-! ## The condition is needed

At any state of a run that has kept to it, a step against it is followed by a
violation in two more steps of the thread, or is one. -/

theorem unsound_next {s s' : State} {e : Event} {before : List Event}
    (h : Balanced s) (hG : ¬ Woken before s e) (he : step s e = some s') :
    ∃ es s'', exec step s' es = some s'' ∧ ¬ Sound s'' := by
  cases e with
  | irqCount =>
      cases he
      have hmax : s.counter_th = INT_MAX := Int.le_antisymm h.th_max (Int.not_lt.mp hG)
      have hbh : 0 ≤ s.counter_bh := Int.le_trans (ahead_nonneg s) h.bh_ahead
      refine ⟨[], _, rfl, fun hs => ?_⟩
      have hle : s.counter_bh ≤ atomicInc s.counter_th := hs.2.1
      rw [hmax] at hle
      have hwrap : atomicInc INT_MAX < 0 := by decide
      omega
  | threadWake =>
      obtain ⟨_, rfl⟩ := accepted he
      have hz : s.nevents = 0 := Int.le_antisymm (Int.not_lt.mp hG) h.nevents_nonneg
      refine ⟨[.threadInc, .threadDecTest], _, rfl, fun hs => ?_⟩
      have hnonneg : 0 ≤ atomicDec s.nevents := hs.1
      rw [hz] at hnonneg
      exact absurd hnonneg (by decide)
  | irqNote => exact absurd trivial hG
  | irqReturn => exact absurd trivial hG
  | threadInc => exact absurd trivial hG
  | threadDecTest => exact absurd trivial hG
  | threadReturn => exact absurd trivial hG

theorem unsound_of_not_woken {es : List Event} {s s' : State} {e : Event}
    (hrun : exec step my_init es = some s) (hG : Meets step Woken my_init es)
    (hnot : ¬ Woken es s e) (he : step s e = some s') :
    ∃ rest s'', exec step my_init (es ++ e :: rest) = some s'' ∧ ¬ Sound s'' := by
  obtain ⟨rest, s'', hrest, hs⟩ := unsound_next (balanced_of_woken hrun hG) hnot he
  refine ⟨rest, s'', ?_, hs⟩
  rw [exec_append, hrun, Option.bind_some, exec, he, Option.bind_some, hrest]

end KernelLab.Interrupt.Thread
