/-
# `KernelLab.Timer.Timers` — the timers of `timer.c` and `mmap.c`, from load to unload

Both modules arm a timer when they are loaded.  They leave it in different ways:

    timer.c                                mmap.c
      my_init                                demo_map_init
        add_timer(&my_data.tlist)              add_timer(&my_data.timer)
      thr_fun                                timer_func
        printk                                 printk
                                               add_timer(&data->timer)
      my_exit                                demo_map_exit
        del_timer(&my_timer)                   del_timer_sync(&my_data.timer)
        printk                                 cdev_del, .., __free_pages

`my_exit` takes back a timer that was never added: `my_timer` and `my_data.tlist` are
two objects.  `demo_map_exit` waits for the right one, and `del_timer_sync` comes
back only when it is neither pending nor running, so the re-arming in `timer_func`
has come to its end with it.

## What is proved

    TimerLab.none_survives_iff   nothing of the module runs behind my_exit if and only
                                 if thr_fun had run to its end when my_exit returned
    MmapLab.none_survives        nothing of the module runs behind demo_map_exit

A timer that expires leaves the wheel before its function is called.  `del_timer`
takes a pending timer out and does nothing else.  `status` is written by `my_exit`
and never read; it is not in the state.
-/
import KernelLab.Lib.Unload

namespace KernelLab.Timer

open KernelLab.Run KernelLab.Unload

namespace TimerLab

/-- The objects of type `struct timer_list` in the module. -/
inductive TimerList where
  | my_timer
  /-- `my_data.tlist` -/
  | tlist
  deriving DecidableEq, Repr

/-- Where `my_exit` stands. -/
inductive ExitPc where
  | loaded
  | del_timer
  | printk
  | returned
  deriving DecidableEq, Repr

structure State where
  pending : TimerList → Bool
  /-- runs of `thr_fun` -/
  running : Nat
  exit : ExitPc

/-- As `my_init` leaves the module. -/
def my_init : State where
  pending
    | .my_timer => false
    | .tlist => true
  running := 0
  exit := .loaded

inductive Event where
  | expire (timer : TimerList)
  | funReturn
  | exitCall
  | exitDelTimer
  | exitReturn
  deriving DecidableEq, Repr

/-- `del_timer`: a timer that is pending no longer is. -/
def del_timer (timer : TimerList) (s : State) : State :=
  { s with pending := Function.update s.pending timer false }

def step (s : State) : Event → Option State
  | .expire timer =>
      if s.pending timer then
        some { s with
          pending := Function.update s.pending timer false, running := s.running + 1 }
      else none
  | .funReturn => if 0 < s.running then some { s with running := s.running - 1 } else none
  | .exitCall => if s.exit = .loaded then some { s with exit := .del_timer } else none
  | .exitDelTimer =>
      if s.exit = .del_timer then some { del_timer .my_timer s with exit := .printk } else none
  | .exitReturn => if s.exit = .printk then some { s with exit := .returned } else none

def kmod : Kmod State Event where
  step := step
  init := my_init
  Returned s := s.exit = .returned
  Idle s := (∀ timer, s.pending timer = false) ∧ s.running = 0
  Callback e := e = .funReturn ∨ ∃ timer, e = .expire timer
  exitReturn := .exitReturn

/-- `my_timer` is never in the wheel; the other timer is pending, its function is
running, or it has returned. -/
structure Once (es : List Event) (s : State) : Prop where
  my_timer : s.pending .my_timer = false
  tlist : (s.pending .tlist).toNat + s.running + es.count .funReturn = 1

theorem Once.init : Once [] my_init := ⟨rfl, rfl⟩

theorem Once.step {es : List Event} {s s' : State} {e : Event} (h : Once es s)
    (he : step s e = some s') : Once (es ++ [e]) s' := by
  obtain ⟨hmy, ht⟩ := h
  cases e with
  | expire timer =>
      obtain ⟨hp, rfl⟩ := accepted he
      cases timer with
      | my_timer =>
          rw [hmy] at hp
          cases hp
      | tlist =>
          refine ⟨?_, ?_⟩
          · show Function.update s.pending .tlist false .my_timer = false
            rw [Function.update_of_ne (by decide), hmy]
          · rw [count_concat_ne (by decide)]
            simp only [hp, Bool.toNat_true] at ht
            simp only [Function.update_self, Bool.toNat_false]
            omega
  | funReturn =>
      obtain ⟨hr, rfl⟩ := accepted he
      refine ⟨hmy, ?_⟩
      rw [count_concat_self]
      simp only
      omega
  | exitDelTimer =>
      obtain ⟨-, rfl⟩ := accepted he
      refine ⟨?_, ?_⟩
      · show Function.update s.pending .my_timer false .my_timer = false
        rw [Function.update_self]
      · rw [count_concat_ne (by decide)]
        show (Function.update s.pending .my_timer false .tlist).toNat + _ + _ = 1
        rw [Function.update_of_ne (by decide)]
        exact ht
  | exitCall | exitReturn =>
      obtain ⟨-, rfl⟩ := accepted he
      refine ⟨hmy, ?_⟩
      rw [count_concat_ne (by decide)]
      exact ht

theorem once_of_exec {es : List Event} {s : State} (h : exec step my_init es = some s) :
    Once es s :=
  invariant step (I := Once) Once.init (fun _ _ _ _ hI he => hI.step he) es s h

/-- Nothing is left of the timer exactly when `thr_fun` has run to its end. -/
theorem idle_iff {es : List Event} {s : State} (h : exec step my_init es = some s) :
    kmod.Idle s ↔ .funReturn ∈ es := by
  obtain ⟨hmy, ht⟩ := once_of_exec h
  rw [← List.count_pos_iff]
  constructor
  · rintro ⟨hp, hr⟩
    simp only [hp, hr, Bool.toNat_false] at ht
    omega
  · intro hpos
    refine ⟨?_, by omega⟩
    rintro (_ | _)
    · exact hmy
    · exact Bool.toNat_eq_zero.mp (by omega)

structure Gone (s : State) : Prop where
  exit : s.exit = .returned
  idle : kmod.Idle s

theorem Gone.step {s s' : State} {e : Event} (h : Gone s) (he : step s e = some s') :
    Gone s' ∧ ¬ kmod.Callback e := by
  obtain ⟨hx, hp, hr⟩ := h
  cases e with
  | expire timer =>
      obtain ⟨hpt, -⟩ := accepted he
      rw [hp] at hpt
      cases hpt
  | funReturn =>
      obtain ⟨hpos, -⟩ := accepted he
      omega
  | exitCall | exitDelTimer | exitReturn =>
      obtain ⟨hl, -⟩ := accepted he
      rw [hx] at hl
      cases hl

theorem lawful : Lawful kmod Gone where
  loaded h := by cases h
  returned he := by
    obtain ⟨-, rfl⟩ := accepted he
    exact ⟨rfl, Iff.rfl⟩
  only {s e s'} he hret := by
    cases e with
    | exitReturn => exact .inr rfl
    | exitCall | exitDelTimer =>
        obtain ⟨-, rfl⟩ := accepted he
        cases hret
    | expire | funReturn =>
        obtain ⟨-, rfl⟩ := accepted he
        exact .inl hret
  enter _ hret hidle := ⟨hret, hidle⟩
  idle h := h.idle
  stable h he := h.step he

theorem none_survives_iff {es : List Event} {s : State} (h : exec step my_init es = some s) :
    NoneSurvives kmod es ↔
      Meets step (fun before _ e => e = .exitReturn → .funReturn ∈ before) my_init es :=
  lawful.noneSurvives_iff_meets (fun es => Event.funReturn ∈ es) (fun hs _ => idle_iff hs) h

end TimerLab

namespace MmapLab

/-- Where `demo_map_exit` stands. -/
inductive ExitPc where
  | loaded
  | del_timer_sync
  /-- behind it, releasing device and page -/
  | cdev_del
  | returned
  deriving DecidableEq, Repr

structure State where
  /-- `my_data.timer` is in the wheel -/
  pending : Bool
  /-- runs of `timer_func` before `add_timer` -/
  started : Nat
  /-- runs of `timer_func` behind it -/
  rearmed : Nat
  exit : ExitPc
  deriving DecidableEq, Repr

/-- As `demo_map_init` leaves the module when it returns 0. -/
def demo_map_init : State := ⟨true, 0, 0, .loaded⟩

inductive Event where
  | expire
  | rearm
  | funReturn
  | exitCall
  | exitDelTimerSync
  | exitReturn
  deriving DecidableEq, Repr

def step (s : State) : Event → Option State
  | .expire =>
      if s.pending then some { s with pending := false, started := s.started + 1 } else none
  | .rearm =>
      if 0 < s.started then
        some { s with pending := true, started := s.started - 1, rearmed := s.rearmed + 1 }
      else none
  | .funReturn => if 0 < s.rearmed then some { s with rearmed := s.rearmed - 1 } else none
  | .exitCall => if s.exit = .loaded then some { s with exit := .del_timer_sync } else none
  | .exitDelTimerSync =>
      if s.exit = .del_timer_sync ∧ s.started = 0 ∧ s.rearmed = 0 then
        some { s with pending := false, exit := .cdev_del }
      else none
  | .exitReturn => if s.exit = .cdev_del then some { s with exit := .returned } else none

/-- The timer is neither pending nor running. -/
def Idle (s : State) : Prop := s.pending = false ∧ s.started = 0 ∧ s.rearmed = 0

def kmod : Kmod State Event where
  step := step
  init := demo_map_init
  Returned s := s.exit = .returned
  Idle := Idle
  Callback e := e = .expire ∨ e = .rearm ∨ e = .funReturn
  exitReturn := .exitReturn

/-- Behind `del_timer_sync` the timer is idle. -/
def Deleted (s : State) : Prop := s.exit = .cdev_del ∨ s.exit = .returned → Idle s

/-- An idle timer makes no step. -/
theorem Idle.not_callback {s s' : State} {e : Event} (h : Idle s) (he : step s e = some s') :
    ¬ kmod.Callback e := by
  obtain ⟨hp, hs, hr⟩ := h
  rintro (rfl | rfl | rfl)
  · obtain ⟨hpend, -⟩ := accepted he
    rw [hp] at hpend
    cases hpend
  · obtain ⟨hpos, -⟩ := accepted he
    omega
  · obtain ⟨hpos, -⟩ := accepted he
    omega

theorem Deleted.step {s s' : State} {e : Event} (h : Deleted s) (he : step s e = some s') :
    Deleted s' := by
  cases e with
  | expire | rearm | funReturn =>
      have hexit : s'.exit = s.exit := by
        obtain ⟨-, rfl⟩ := accepted he
        rfl
      intro hx
      rw [hexit] at hx
      exact absurd (by simp [kmod]) ((h hx).not_callback he)
  | exitCall =>
      obtain ⟨-, rfl⟩ := accepted he
      rintro (hx | hx) <;> cases hx
  | exitDelTimerSync =>
      obtain ⟨⟨-, hs, hr⟩, rfl⟩ := accepted he
      exact fun _ => ⟨rfl, hs, hr⟩
  | exitReturn =>
      obtain ⟨hx, rfl⟩ := accepted he
      exact fun _ => h (.inl hx)

theorem deleted_of_exec {es : List Event} {s : State} (h : exec step demo_map_init es = some s) :
    Deleted s := by
  refine invariant step (I := fun _ s => Deleted s) ?_ (fun _ _ _ _ hI he => hI.step he) es s h
  rintro (hx | hx) <;> cases hx

structure Gone (s : State) : Prop where
  exit : s.exit = .returned
  idle : Idle s

theorem Gone.step {s s' : State} {e : Event} (h : Gone s) (he : step s e = some s') :
    Gone s' ∧ ¬ kmod.Callback e := by
  obtain ⟨hx, hidle⟩ := h
  refine ⟨?_, hidle.not_callback he⟩
  cases e with
  | expire | rearm | funReturn => exact absurd (by simp [kmod]) (hidle.not_callback he)
  | exitCall | exitReturn =>
      obtain ⟨hl, -⟩ := accepted he
      rw [hx] at hl
      cases hl
  | exitDelTimerSync =>
      obtain ⟨⟨hl, -⟩, -⟩ := accepted he
      rw [hx] at hl
      cases hl

theorem lawful : Lawful kmod Gone where
  loaded h := by cases h
  returned he := by
    obtain ⟨-, rfl⟩ := accepted he
    exact ⟨rfl, Iff.rfl⟩
  only {s e s'} he hret := by
    cases e with
    | exitReturn => exact .inr rfl
    | exitCall | exitDelTimerSync =>
        obtain ⟨-, rfl⟩ := accepted he
        cases hret
    | expire | rearm | funReturn =>
        obtain ⟨-, rfl⟩ := accepted he
        exact .inl hret
  enter _ hret hidle := ⟨hret, hidle⟩
  idle h := h.idle
  stable h he := h.step he

theorem none_survives {es : List Event} {s : State} (h : exec step demo_map_init es = some s) :
    NoneSurvives kmod es := by
  refine lawful.noneSurvives_of_idle ?_ h
  intro es s s' hs he
  obtain ⟨hx, -⟩ := accepted he
  exact deleted_of_exec hs (.inl hx)

end MmapLab

end KernelLab.Timer
