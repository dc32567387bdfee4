/-
# `KernelLab.CharDev.WaitEvent` — the blocking device of `wait_event.c`

The transfer is that of the misc device, between a wait and a flag:

    mycdev_generic_read                    mycdev_generic_write
      wait_event(data_ready)                 copy_from_user
      if (signal_pending) return             atomic_set(&data_ready, 1)
      copy_to_user                           wake_up
      atomic_set(&data_ready, 0)

A reader clears the flag at the end of its copy, whatever happened to it since it
passed the wait.  A writer that stores in between has its store undone by a reader
that came through on an earlier one: the flag is down, and no reader was ever let
in on the new data (`store_cleared_by_earlier_reader`).

## What is proved

    no writer stores data_ready = 1 while a reader is between its wait and its
    own clear
      ⟹  in every state of the run, a store that no reader has passed since is
          still visible: data_ready = 1                    (`kept_of_apart`)

and the condition cannot be relaxed at any state: a single store against it can
be followed at once by the clear that loses it (`lost_of_overlap`).

Calls have no state of their own that bears on the flag, so readers and writers
midway are kept as numbers, one for each place between two steps.  Any number of
calls may be under way.
-/
import KernelLab.Lib.Run
import KernelLab.CharDev.Transfer

namespace KernelLab.CharDev.WaitEvent

open KernelLab.Run

def ERESTARTSYS : Int := 512

/-- The read, from the moment its wait is over.  With a signal pending it returns
without a copy; the pair's second half is the value it stores in `data_ready`, if
it stores one. -/
def mycdev_generic_read (signal_pending : Bool) (ramdisk : Ramdisk) (ppos : Int) (lbuf k : Nat) :
    Call (List UInt8) × Option Int :=
  if signal_pending then (⟨none, some [], 0, -ERESTARTSYS, ppos⟩, none)
  else (readCall ramdisk ppos lbuf k, some 0)

def mycdev_generic_write (ramdisk : Ramdisk) (ppos : Int) (buf : List UInt8) (k : Nat) :
    Call Ramdisk × Option Int :=
  (writeCall ramdisk ppos buf k, some 1)

/-! ## The calls as steps -/

structure State where
  data_ready : Int
  /-- readers behind the wait, before their copy -/
  passed : Nat
  /-- readers behind their copy, before they clear the flag -/
  copied : Nat
  /-- writers behind their copy, before they store the flag -/
  filled : Nat
  /-- writers behind their store, before the wake-up -/
  stored : Nat
  deriving DecidableEq, Repr

/-- As `my_generic_init` leaves the flag. -/
def my_generic_init : State := ⟨0, 0, 0, 0, 0⟩

inductive Event where
  /-- a reader finds the flag up and no signal pending -/
  | readerPass
  /-- a reader leaves with `-ERESTARTSYS` -/
  | readerRestart
  | readerCopy
  | readerClear
  | writerCopy
  | writerStore
  | writerWake
  deriving DecidableEq, Repr

def step (s : State) : Event → Option State
  | .readerPass => if s.data_ready ≠ 0 then some { s with passed := s.passed + 1 } else none
  | .readerRestart => some s
  | .readerCopy =>
      if 0 < s.passed then some { s with passed := s.passed - 1, copied := s.copied + 1 } else none
  | .readerClear =>
      if 0 < s.copied then some { s with copied := s.copied - 1, data_ready := 0 } else none
  | .writerCopy => some { s with filled := s.filled + 1 }
  | .writerStore =>
      if 0 < s.filled then
        some { s with filled := s.filled - 1, stored := s.stored + 1, data_ready := 1 }
      else none
  | .writerWake => if 0 < s.stored then some { s with stored := s.stored - 1 } else none

/-- Some writer has stored, and no reader has passed its wait since. -/
def Unoffered (es : List Event) : Prop :=
  ∃ before after, es = before ++ .writerStore :: after ∧ .readerPass ∉ after

/-- The store that nobody was offered is still visible. -/
def Kept (es : List Event) (s : State) : Prop := Unoffered es → s.data_ready = 1

/-- A reader passes on the first write; the second write stores before that reader
clears. -/
def overlap : List Event :=
  [.writerCopy, .writerStore, .writerWake, .readerPass, .readerCopy,
   .writerCopy, .writerStore, .writerWake, .readerClear]

theorem store_cleared_by_earlier_reader :
    ∃ s, exec step my_generic_init overlap = some s ∧ s.data_ready = 0 ∧ ¬ Kept overlap s := by
  refine ⟨my_generic_init, by decide, rfl, ?_⟩
  intro h
  have : Unoffered overlap := ⟨overlap.take 6, [.writerWake, .readerClear], rfl, by decide⟩
  exact absurd (h this) (by decide)

/-! ## `Unoffered`, one event at a time -/

theorem not_unoffered_nil : ¬ Unoffered [] := not_since_nil _ _

theorem unoffered_store (es : List Event) : Unoffered (es ++ [.writerStore]) :=
  since_concat_self _ _ es

theorem not_unoffered_pass (es : List Event) : ¬ Unoffered (es ++ [.readerPass]) :=
  not_since_concat (by decide) es

theorem unoffered_concat {es : List Event} {e : Event} (hs : e ≠ .writerStore)
    (hp : e ≠ .readerPass) : Unoffered (es ++ [e]) ↔ Unoffered es :=
  since_concat hs hp

/-! ## The condition, and the invariant under it -/

/-- A writer stores only while no reader is between its wait and its clear. -/
def Apart (_ : List Event) (s : State) : Event → Prop
  | .writerStore => s.passed = 0 ∧ s.copied = 0
  | _ => True

instance decApart (before : List Event) (s : State) : (e : Event) → Decidable (Apart before s e)
  | .writerStore => inferInstanceAs (Decidable (_ ∧ _))
  | .readerPass | .readerRestart | .readerCopy | .readerClear | .writerCopy | .writerWake =>
      inferInstanceAs (Decidable True)

/-- While a store is not offered to anybody, it is visible and there is nobody
who could clear it. -/
def Undisturbed (es : List Event) (s : State) : Prop :=
  Unoffered es → s.data_ready = 1 ∧ s.passed = 0 ∧ s.copied = 0

theorem Undisturbed.step {es : List Event} {s s' : State} {e : Event} (h : Undisturbed es s)
    (hG : Apart es s e) (he : step s e = some s') : Undisturbed (es ++ [e]) s' := by
  intro hu
  cases e with
  | readerPass => exact absurd hu (not_unoffered_pass es)
  | readerRestart =>
      cases he
      exact h ((unoffered_concat (by decide) (by decide)).mp hu)
  | readerCopy =>
      obtain ⟨hp, rfl⟩ := accepted he
      have := h ((unoffered_concat (by decide) (by decide)).mp hu)
      omega
  | readerClear =>
      obtain ⟨hc, rfl⟩ := accepted he
      have := h ((unoffered_concat (by decide) (by decide)).mp hu)
      omega
  | writerCopy =>
      cases he
      exact h ((unoffered_concat (by decide) (by decide)).mp hu)
  | writerStore =>
      obtain ⟨_, rfl⟩ := accepted he
      exact ⟨rfl, hG⟩
  | writerWake =>
      obtain ⟨_, rfl⟩ := accepted he
      exact h ((unoffered_concat (by decide) (by decide)).mp hu)

theorem kept_of_apart (es : List Event) (s : State)
    (hrun : exec step my_generic_init es = some s) (hG : Meets step Apart my_generic_init es) :
    Kept es s := by
  intro hu
  have hI : Undisturbed es s :=
    invariant_of_meets step (I := Undisturbed) (fun h => absurd h not_unoffered_nil)
      (fun _ _ _ _ hI hG he => hI.step hG he) es s hrun hG
  exact (hI hu).1

/-- Two writes, each read before the next; a third is waiting for its reader. -/
def inTurn : List Event :=
  [.writerCopy, .writerStore, .writerWake, .readerPass, .readerCopy, .writerCopy, .readerClear,
   .writerStore, .writerWake, .readerPass, .readerCopy, .readerClear, .writerCopy, .writerStore]

theorem kept_inTurn :
    ∃ s, exec step my_generic_init inTurn = some s ∧ Meets step Apart my_generic_init inTurn ∧
      Unoffered inTurn ∧ Kept inTurn s := by
  have hrun : exec step my_generic_init inTurn =
      some { my_generic_init with data_ready := 1, stored := 1 } := by decide
  exact ⟨_, hrun, by decide, unoffered_store (inTurn.take 13),
    kept_of_apart inTurn _ hrun (by decide)⟩

/-! ## The condition is needed

From any state in which a writer is about to store against it, the reader midway
can finish at once, and the store is lost. -/

theorem lost_of_overlap {es : List Event} {s : State}
    (hrun : exec step my_generic_init es = some s) (hf : 0 < s.filled)
    (hmid : ¬ Apart es s .writerStore) :
    ∃ rest s', exec step my_generic_init (es ++ .writerStore :: rest) = some s' ∧
      ¬ Kept (es ++ .writerStore :: rest) s' := by
  have hlost : ∀ {rest : List Event} {s' : State}, .readerPass ∉ rest → s'.data_ready = 0 →
      ¬ Kept (es ++ .writerStore :: rest) s' := by
    intro rest s' hn h0 hk
    have := hk ⟨es, rest, rfl, hn⟩
    omega
  by_cases hc : 0 < s.copied
  · refine ⟨[.readerClear], { s with
      filled := s.filled - 1, stored := s.stored + 1, copied := s.copied - 1, data_ready := 0 },
      ?_, hlost (by decide) rfl⟩
    rw [exec_append, hrun]
    simp [exec, step, hf, hc]
  · have hp : 0 < s.passed := by
      by_contra hp
      exact hmid ⟨by omega, by omega⟩
    have h0 : s.copied = 0 := by omega
    refine ⟨[.readerCopy, .readerClear], { s with
      filled := s.filled - 1, stored := s.stored + 1, passed := s.passed - 1, data_ready := 0 },
      ?_, hlost (by decide) rfl⟩
    rw [exec_append, hrun]
    simp [exec, step, hf, hp, h0]

end KernelLab.CharDev.WaitEvent
