/-
# `KernelLab.Poll.Poll` — the poll device of `poll.c`

Every open file has a `struct polldev` of its own, and `ioctl` sets its `state`:

    kern_open             pd = kmalloc;  pd->state = 0;  private_data = pd
    kern_unlocked_ioctl   1: pd->state = POLLIN    2: pd->state = 0    else -ENOTTY
    kern_poll             poll_wait(&pd->wq);  return mask
    kern_release          kfree(pd)

Two local values are never set: `mask` in `kern_poll`, and the return value of
`kern_open`, which has no `return` at its end.  Both are part of the event here, since
nothing in the module decides them.  The VFS keeps a file open only if `kern_open`
returned 0.

The heap is explicit.  What is assumed of `kmalloc` is that it returns `NULL` or the
address of an object that is not in use; `NULL` is not an `IS_ERR` pointer, so
`kern_open` writes through it, and there is no state behind that.

## What is proved

`reports_iff_mask_is_state`: a run reports the device state, at every `kern_poll` and
whatever is done on other files, if and only if at each `kern_poll` the indeterminate
`mask` happens to be the `state` of that file's `polldev`.
-/
import KernelLab.Lib.Run

namespace KernelLab.Poll

open KernelLab.Run

def POLLIN : Nat := 1

def ENOTTY : Int := 25

/-- `struct polldev`, without its wait queue. -/
structure PollDev where
  state : Nat
  deriving DecidableEq, Repr

variable {File : Type}

structure State (File : Type) where
  /-- the objects `kmalloc` has given out, by address -/
  heap : Nat → Option PollDev
  /-- of the open files -/
  private_data : File → Option Nat

/-- As `my_init` leaves the module: no file is open. -/
def my_init : State File := ⟨fun _ => none, fun _ => none⟩

/-- A call, with the values the module leaves to chance: what `kmalloc` returned and
the return value of `kern_open`, and `mask` of `kern_poll`. -/
inductive Event (File : Type) where
  | open (f : File) (pd : Option Nat) (ret : Int)
  | ioctl (f : File) (cmd : Nat)
  | poll (f : File) (mask : Nat)
  | release (f : File)
  deriving DecidableEq, Repr

def kern_unlocked_ioctl (pd : PollDev) (cmd : Nat) : Int × PollDev :=
  if cmd = 1 then (0, { pd with state := POLLIN })
  else if cmd = 2 then (0, { pd with state := 0 })
  else (-ENOTTY, pd)

/-- `poll_wait` puts the caller on the queue and touches nothing else. -/
def kern_poll (_pd : PollDev) (mask : Nat) : Nat := mask

/-- The `polldev` of an open file. -/
def polldev (s : State File) (f : File) : Option (Nat × PollDev) :=
  (s.private_data f).bind fun a => (s.heap a).map fun pd => (a, pd)

theorem polldev_some {s : State File} {f : File} {p : Nat × PollDev} (h : polldev s f = some p) :
    s.private_data f = some p.1 ∧ s.heap p.1 = some p.2 := by
  obtain ⟨a, ha, hpd⟩ := Option.bind_eq_some_iff.mp h
  obtain ⟨pd, hheap, rfl⟩ := Option.map_eq_some_iff.mp hpd
  exact ⟨ha, hheap⟩

variable [DecidableEq File]

/-- The value a call returns, and the state behind it.  No call is made on a file that
is not open, and none comes back from a `NULL` dereference. -/
def call (s : State File) : Event File → Option (Int × State File)
  | .open f pd ret =>
      match pd with
      | none => none
      | some a =>
          if s.private_data f = none ∧ s.heap a = none then
            some (ret,
              { heap := Function.update s.heap a (some ⟨0⟩)
                private_data :=
                  if ret = 0 then Function.update s.private_data f (some a)
                  else s.private_data })
          else none
  | .ioctl f cmd =>
      (polldev s f).map fun p =>
        ((kern_unlocked_ioctl p.2 cmd).1,
          { s with heap := Function.update s.heap p.1 (some (kern_unlocked_ioctl p.2 cmd).2) })
  | .poll f mask => (polldev s f).map fun p => (kern_poll p.2 mask, s)
  | .release f =>
      (polldev s f).map fun p =>
        (0, { heap := Function.update s.heap p.1 none
              private_data := Function.update s.private_data f none })

def step (s : State File) (e : Event File) : Option (State File) := (call s e).map Prod.snd

/-! ## What is asked of a run -/

/-- One more event: the last 1 or 2 sent to `f` since it was opened. -/
def lastCmdStep (f : File) (cmd : Option Nat) : Event File → Option Nat
  | .open g _ _ => if g = f then none else cmd
  | .ioctl g c => if g = f ∧ (c = 1 ∨ c = 2) then some c else cmd
  | .poll _ _ => cmd
  | .release _ => cmd

def lastCmd (f : File) (es : List (Event File)) : Option Nat := es.foldl (lastCmdStep f) none

/-- The mask a poll is to return. -/
def expected (f : File) (es : List (Event File)) : Nat :=
  if lastCmd f es = some 1 then POLLIN else 0

/-- A call behind `before`, made in the state `s`, does what it should. -/
def ReportsAt (before : List (Event File)) (s : State File) : Event File → Prop
  | .poll f mask => ∀ out, call s (.poll f mask) = some out → out.1 = expected f before
  | .ioctl f cmd => ∀ out, call s (.ioctl f cmd) = some out → cmd ≠ 1 → cmd ≠ 2 →
      out = (-ENOTTY, s)
  | .open _ _ _ => True
  | .release _ => True

/-- Every call of the run does. -/
def Reports (es : List (Event File)) : Prop :=
  ∀ before e after s, es = before ++ e :: after → exec step my_init before = some s →
    ReportsAt before s e

/-- The indeterminate mask is the state of the file's own `polldev`. -/
def MaskIsState (_ : List (Event File)) (s : State File) : Event File → Prop
  | .poll f mask => ∀ p, polldev s f = some p → mask = p.2.state
  | _ => True

/-! ## The state of each file -/

/-- Every open file has a `polldev` of its own, and that holds what was last set. -/
structure Tracks (es : List (Event File)) (s : State File) : Prop where
  state : ∀ f a, s.private_data f = some a → s.heap a = some ⟨expected f es⟩
  apart : ∀ f g a, s.private_data f = some a → s.private_data g = some a → f = g

theorem lastCmd_concat (f : File) (es : List (Event File)) (e : Event File) :
    lastCmd f (es ++ [e]) = lastCmdStep f (lastCmd f es) e := by
  simp [lastCmd]

theorem Tracks.init : Tracks [] (my_init : State File) where
  state f a h := by cases h
  apart f g a h := by cases h

section Steps

variable {es : List (Event File)} {s s' : State File} {f : File}

/-- A file that is open behind a change to the table of files. -/
theorem update_cases {files : File → Option Nat} {v : Option Nat} {g : File} {b : Nat}
    (h : Function.update files f v g = some b) :
    (g = f ∧ v = some b) ∨ (g ≠ f ∧ files g = some b) := by
  by_cases hgf : g = f
  · rw [hgf, Function.update_self] at h
    exact .inl ⟨hgf, h⟩
  · rw [Function.update_of_ne hgf] at h
    exact .inr ⟨hgf, h⟩

/-- An event on `f` does not touch the account of another file. -/
theorem expected_other {g : File} {e : Event File} (hg : g ≠ f)
    (he : (∃ pd ret, e = .open f pd ret) ∨ (∃ cmd, e = .ioctl f cmd) ∨ e = .release f) :
    expected g (es ++ [e]) = expected g es := by
  unfold expected
  rw [lastCmd_concat]
  rcases he with ⟨pd, ret, rfl⟩ | ⟨cmd, rfl⟩ | rfl
  · rw [lastCmdStep, if_neg (Ne.symm hg)]
  · have hfg : ¬ (f = g ∧ (cmd = 1 ∨ cmd = 2)) := fun h => hg h.1.symm
    rw [lastCmdStep, if_neg hfg]
  · rfl

/-- An object that is not in use is not that of any open file. -/
theorem Tracks.ne_of_free (h : Tracks es s) {a b : Nat} (ha : s.heap a = none) {g : File}
    (hb : s.private_data g = some b) : b ≠ a := by
  rintro rfl
  rw [h.state g b hb] at ha
  cases ha

theorem Tracks.open {pd : Option Nat} {ret : Int} (h : Tracks es s)
    (he : step s (.open f pd ret) = some s') : Tracks (es ++ [.open f pd ret]) s' := by
  cases pd with
  | none => cases he
  | some a =>
      obtain ⟨out, hcall, rfl⟩ := Option.map_eq_some_iff.mp he
      obtain ⟨⟨hclosed, hfree⟩, rfl⟩ := accepted hcall
      have hold : ∀ g b, s.private_data g = some b →
          Function.update s.heap a (some ⟨0⟩) b =
            some ⟨expected g (es ++ [.open f (some a) ret])⟩ := by
        intro g b hb
        have hgf : g ≠ f := by
          rintro rfl
          rw [hb] at hclosed
          cases hclosed
        rw [Function.update_of_ne (h.ne_of_free hfree hb), h.state g b hb,
          expected_other hgf (.inl ⟨_, _, rfl⟩)]
      by_cases hret : ret = 0
      · simp only [if_pos hret]
        refine ⟨?_, ?_⟩
        · intro g b hb
          rcases update_cases hb with ⟨rfl, hab⟩ | ⟨-, hb⟩
          · obtain rfl := Option.some.inj hab
            simp [expected, lastCmd_concat, lastCmdStep]
          · exact hold g b hb
        · intro g₁ g₂ b h₁ h₂
          rcases update_cases h₁ with ⟨hg₁, hab⟩ | ⟨-, hb₁⟩
          · rcases update_cases h₂ with ⟨hg₂, -⟩ | ⟨-, hb₂⟩
            · rw [hg₁, hg₂]
            · exact absurd (Option.some.inj hab).symm (h.ne_of_free hfree hb₂)
          · rcases update_cases h₂ with ⟨-, hab⟩ | ⟨-, hb₂⟩
            · exact absurd (Option.some.inj hab).symm (h.ne_of_free hfree hb₁)
            · exact h.apart g₁ g₂ b hb₁ hb₂
      · -- the file is given up, its object never freed
        simp only [if_neg hret]
        exact ⟨hold, h.apart⟩

/-- What `ioctl` leaves in the `polldev` is what is expected from then on. -/
theorem ioctl_state (cmd : Nat) :
    (kern_unlocked_ioctl ⟨expected f es⟩ cmd).2 = ⟨expected f (es ++ [.ioctl f cmd])⟩ := by
  unfold expected
  rw [lastCmd_concat, lastCmdStep]
  by_cases h1 : cmd = 1
  · simp [kern_unlocked_ioctl, h1]
  · by_cases h2 : cmd = 2
    · simp [kern_unlocked_ioctl, h2]
    · simp [kern_unlocked_ioctl, h1, h2]

theorem Tracks.ioctl {cmd : Nat} (h : Tracks es s) (he : step s (.ioctl f cmd) = some s') :
    Tracks (es ++ [.ioctl f cmd]) s' := by
  obtain ⟨out, hcall, rfl⟩ := Option.map_eq_some_iff.mp he
  obtain ⟨⟨a, pd⟩, hpd, rfl⟩ := Option.map_eq_some_iff.mp hcall
  obtain ⟨hf, hheap⟩ := polldev_some hpd
  rw [h.state f a hf] at hheap
  obtain rfl := Option.some.inj hheap
  refine ⟨?_, h.apart⟩
  intro g b hb
  by_cases hgf : g = f
  · subst hgf
    obtain rfl := Option.some.inj (hb.symm.trans hf)
    simp only [Function.update_self]
    rw [ioctl_state]
  · have hba : b ≠ a := fun heq => hgf (h.apart g f a (heq ▸ hb) hf)
    simp only
    rw [Function.update_of_ne hba, h.state g b hb, expected_other hgf (.inr (.inl ⟨_, rfl⟩))]

theorem Tracks.release (h : Tracks es s) (he : step s (.release f) = some s') :
    Tracks (es ++ [.release f]) s' := by
  obtain ⟨out, hcall, rfl⟩ := Option.map_eq_some_iff.mp he
  obtain ⟨⟨a, pd⟩, hpd, rfl⟩ := Option.map_eq_some_iff.mp hcall
  obtain ⟨hf, -⟩ := polldev_some hpd
  refine ⟨?_, ?_⟩
  · intro g b hb
    rcases update_cases hb with ⟨-, hnone⟩ | ⟨hgf, hb⟩
    · cases hnone
    · have hba : b ≠ a := fun heq => hgf (h.apart g f a (heq ▸ hb) hf)
      simp only
      rw [Function.update_of_ne hba, h.state g b hb, expected_other hgf (.inr (.inr rfl))]
  · intro g₁ g₂ b h₁ h₂
    rcases update_cases h₁ with ⟨-, hnone⟩ | ⟨-, h₁⟩
    · cases hnone
    · rcases update_cases h₂ with ⟨-, hnone⟩ | ⟨-, h₂⟩
      · cases hnone
      · exact h.apart g₁ g₂ b h₁ h₂

theorem Tracks.step {e : Event File} (h : Tracks es s) (he : step s e = some s') :
    Tracks (es ++ [e]) s' := by
  cases e with
  | «open» f pd ret => exact h.open he
  | ioctl f cmd => exact h.ioctl he
  | poll f mask =>
      obtain ⟨out, hcall, rfl⟩ := Option.map_eq_some_iff.mp he
      obtain ⟨p, -, rfl⟩ := Option.map_eq_some_iff.mp hcall
      refine ⟨?_, h.apart⟩
      intro g a ha
      rw [expected, lastCmd_concat]
      exact h.state g a ha
  | release f => exact h.release he

end Steps

theorem tracks_of_exec {es : List (Event File)} {s : State File}
    (h : exec step my_init es = some s) : Tracks es s :=
  invariant step (I := Tracks) Tracks.init (fun _ _ _ _ hI he => hI.step he) es s h

/-! ## The calls -/

/-- In a state that tracks its history, a call reports if and only if its mask is right. -/
theorem reportsAt_iff {before : List (Event File)} {s : State File} (h : Tracks before s)
    (e : Event File) : ReportsAt before s e ↔ MaskIsState before s e := by
  cases e with
  | «open» f pd ret => exact Iff.rfl
  | release f => exact Iff.rfl
  | ioctl f cmd =>
      refine iff_of_true ?_ trivial
      intro out hcall h1 h2
      obtain ⟨⟨a, pd⟩, hpd, rfl⟩ := Option.map_eq_some_iff.mp hcall
      obtain ⟨-, hheap⟩ := polldev_some hpd
      simp only [kern_unlocked_ioctl, h1, h2, if_false]
      rw [show some pd = s.heap a from hheap.symm, Function.update_eq_self]
  | poll f mask =>
      have hstate : ∀ p, polldev s f = some p → p.2.state = expected f before := by
        intro p hp
        obtain ⟨hf, hheap⟩ := polldev_some hp
        rw [h.state f p.1 hf] at hheap
        rw [← Option.some.inj hheap]
      constructor
      · intro hrep p hp
        rw [hstate p hp]
        exact Int.ofNat_inj.mp (hrep _ (by rw [call, hp]; rfl))
      · intro hmask out hcall
        obtain ⟨p, hp, rfl⟩ := Option.map_eq_some_iff.mp hcall
        show ((kern_poll p.2 mask : Nat) : Int) = _
        rw [kern_poll, hmask p hp, hstate p hp]

theorem reports_iff_mask_is_state (es : List (Event File)) :
    Reports es ↔ Meets step MaskIsState my_init es := by
  rw [meets_iff]
  constructor
  · intro h before e after s heq hs
    exact (reportsAt_iff (tracks_of_exec hs) e).mp (h before e after s heq hs)
  · intro h before e after s heq hs
    exact (reportsAt_iff (tracks_of_exec hs) e).mpr (h before e after s heq hs)

/-- Woken, and polled with a zero on the stack. -/
def wokenUnseen : List (Event Unit) := [.open () (some 8) 0, .ioctl () 1, .poll () 0]

theorem poll_misses_state :
    (∃ s, exec step my_init wokenUnseen = some s) ∧ ¬ Reports wokenUnseen := by
  refine ⟨⟨_, rfl⟩, ?_⟩
  intro h
  have hpoll := h [.open () (some 8) 0, .ioctl () 1] (.poll () 0) [] _ rfl rfl _ rfl
  exact absurd hpoll (by decide)

end KernelLab.Poll
